import Mathlib.Logic.Relation
import WordTemplate.Filling.Rows
import WordTemplate.Proofs.Markup.Places

/-! Trees whose runs have been joined. The text before a row, in it and behind it stays what it was, as
long as all text is that of texts outside of the properties of runs. -/

namespace WordTemplate.Wordml

open Markup
open Markup.Tree (textOf elementsAll Located)
open Relation (ReflTransGen)

mutual

/-- All text is that of text elements, which hold no elements and are not among the properties of
runs. -/
def PlainTexts : Tree → Prop
  | .node element children =>
    (element.tag = text → children = []) ∧ (element.tag ≠ text → element.text = "") ∧
      (element.tag = runProperties → ∀ inner ∈ elementsAll children, inner.tag ≠ text) ∧
      PlainTextsAll children

def PlainTextsAll : List Tree → Prop
  | [] => True
  | tree :: rest => PlainTexts tree ∧ PlainTextsAll rest

end

/-- The second row of trees is the first one with runs joined and attributes changed. -/
inductive Merged : List Tree → List Tree → Prop
  | nil : Merged [] []
  | node {element changed : Element} {children below rest others : List Tree}
      (tag : changed.tag = element.tag) (text : changed.text = element.text)
      (inner : Merged children below) (next : Merged rest others) :
      Merged (.node element children :: rest) (.node changed below :: others)
  | join {first second : Element} {front back front' back' : List Tree}
      {own taken whole : Element} {rest others : List Tree}
      (isRun : first.tag = run ∧ second.tag = run)
      (properties : ∀ tree ∈ front ++ back ++ (front' ++ back'), tree.element.tag = runProperties)
      (isText : own.tag = text ∧ taken.tag = text ∧ whole.tag = text)
      (content : whole.text = own.text ++ taken.text)
      (next : Merged (.node first (front ++ .node whole [] :: back) :: rest) others) :
      Merged (.node first (front ++ .node own [] :: back) ::
        .node second (front' ++ .node taken [] :: back') :: rest) others

theorem plainTextsAll_append {front back : List Tree} :
    PlainTextsAll (front ++ back) ↔ PlainTextsAll front ∧ PlainTextsAll back := by
  induction front with
  | nil => simp [PlainTextsAll]
  | cons tree rest ih => simp [PlainTextsAll, ih, and_assoc]

mutual

theorem text_eq_of_plainTexts {tree : Tree} (plain : PlainTexts tree) :
    ∀ element ∈ tree.elements, element.tag ≠ text → element.text = "" := by
  cases tree with
  | node element children =>
      intro inner member
      rw [Tree.elements] at member
      rcases List.mem_cons.mp member with rfl | below
      · exact plain.2.1
      · exact text_eq_of_plainTextsAll plain.2.2.2 inner below

theorem text_eq_of_plainTextsAll {trees : List Tree} (plain : PlainTextsAll trees) :
    ∀ element ∈ elementsAll trees, element.tag ≠ text → element.text = "" := by
  cases trees with
  | nil => simp [elementsAll]
  | cons tree rest =>
      intro inner member
      rw [elementsAll] at member
      rcases List.mem_append.mp member with here | later
      · exact text_eq_of_plainTexts plain.1 inner here
      · exact text_eq_of_plainTextsAll plain.2 inner later

end

theorem textOf_eq_empty {elements : List Element} (none : ∀ element ∈ elements, element.text = "") :
    textOf elements = "" := by
  induction elements with
  | nil => rfl
  | cons element rest ih =>
      rw [Tree.textOf_cons, none element (by simp), ih fun other member => none other (by simp [member])]
      rfl

theorem text_eq_of_properties {trees : List Tree} (plain : PlainTextsAll trees)
    (properties : ∀ tree ∈ trees, tree.element.tag = runProperties) :
    ∀ element ∈ elementsAll trees, element.text = "" := by
  intro inner member
  refine text_eq_of_plainTextsAll plain inner member ?_
  revert inner
  induction trees with
  | nil => simp [elementsAll]
  | cons tree rest ih =>
      cases tree with
      | node element children =>
          have isProperties : element.tag = runProperties := properties _ (List.mem_cons_self ..)
          intro inner member
          rw [elementsAll, Tree.elements] at member
          rcases List.mem_append.mp member with here | later
          · rcases List.mem_cons.mp here with rfl | below
            · rw [isProperties]
              decide
            · exact plain.1.2.2.1 isProperties inner below
          · exact ih plain.2 (fun other listed => properties other (by simp [listed])) inner later

theorem textOf_soleRun {run own : Element} {front back : List Tree}
    (plain : PlainTexts (.node run (front ++ .node own [] :: back)))
    (notText : run.tag ≠ text)
    (properties : ∀ tree ∈ front ++ back, tree.element.tag = runProperties) :
    Tree.allText (.node run (front ++ .node own [] :: back)) = own.text := by
  obtain ⟨-, empty, -, children⟩ := plain
  obtain ⟨before, inner⟩ := plainTextsAll_append.mp children
  have none : ∀ trees ⊆ front ++ back, PlainTextsAll trees → textOf (elementsAll trees) = "" :=
    fun trees inside plain => textOf_eq_empty
      (text_eq_of_properties plain fun tree member => properties tree (inside member))
  rw [Tree.allText, Tree.elements, Tree.textOf_cons, empty notText, Tree.elementsAll_append,
    elementsAll, Tree.elements, Tree.textOf_append, Tree.textOf_append,
    none front (by simp) before, none back (by simp) inner.2]
  simp [elementsAll]

section Join

variable {first second own taken whole : Element} {front back front' back' : List Tree}

theorem plain_join (isRun : first.tag = run) (isText : whole.tag = text)
    (plain : PlainTexts (.node first (front ++ .node own [] :: back))) :
    PlainTexts (.node first (front ++ .node whole [] :: back)) := by
  obtain ⟨-, empty, -, children⟩ := plain
  obtain ⟨before, -, after⟩ := plainTextsAll_append.mp children
  have others : first.tag ≠ text ∧ first.tag ≠ runProperties := by
    rw [isRun]
    decide
  refine ⟨fun same => absurd same others.1, empty, fun same => absurd same others.2,
    plainTextsAll_append.mpr ⟨before, ⟨fun _ => rfl, fun other => absurd isText other, ?_, trivial⟩,
      after⟩⟩
  simp [elementsAll]

theorem allText_join (isRun : first.tag = run ∧ second.tag = run)
    (properties : ∀ tree ∈ front ++ back ++ (front' ++ back'), tree.element.tag = runProperties)
    (content : whole.text = own.text ++ taken.text)
    (plain : PlainTexts (.node first (front ++ .node own [] :: back)))
    (other : PlainTexts (.node second (front' ++ .node taken [] :: back')))
    (joined : PlainTexts (.node first (front ++ .node whole [] :: back))) :
    Tree.allText (.node first (front ++ .node whole [] :: back)) =
      Tree.allText (.node first (front ++ .node own [] :: back)) ++
        Tree.allText (.node second (front' ++ .node taken [] :: back')) := by
  have notText : first.tag ≠ text ∧ second.tag ≠ text := by
    rw [isRun.1, isRun.2]
    decide
  obtain ⟨here, there⟩ := List.forall_mem_append.mp properties
  rw [textOf_soleRun plain notText.1 here, textOf_soleRun other notText.2 there,
    textOf_soleRun joined notText.1 here, content]

end Join

namespace Merged

variable {trees others : List Tree}

theorem refl (trees : List Tree) : Merged trees trees := by
  suffices ∀ tree : Tree, ∀ rest, Merged rest rest → Merged (tree :: rest) (tree :: rest) by
    induction trees with
    | nil => exact .nil
    | cons tree rest ih => exact this tree rest ih
  intro tree
  induction tree using Tree.induction with
  | node element children ih =>
      intro rest next
      refine .node rfl rfl ?_ next
      clear next
      induction children with
      | nil => exact .nil
      | cons child others inner =>
          exact ih child (by simp) others (inner fun other member => ih other (by simp [member]))

theorem exists_tag (joined : Merged trees others) :
    ∀ element ∈ elementsAll others, ∃ origin ∈ elementsAll trees, origin.tag = element.tag := by
  induction joined with
  | nil => simp [elementsAll]
  | node tag _ _ _ ih next =>
      intro element member
      simp only [elementsAll, Tree.elements, List.cons_append, List.mem_cons, List.mem_append] at member ⊢
      rcases member with rfl | below | later
      · exact ⟨_, .inl rfl, tag.symm⟩
      · obtain ⟨origin, listed, same⟩ := ih element below
        exact ⟨origin, .inr (.inl listed), same⟩
      · obtain ⟨origin, listed, same⟩ := next element later
        exact ⟨origin, .inr (.inr listed), same⟩
  | @join _ _ _ _ _ _ own _ whole _ _ _ _ isText _ _ ih =>
      intro element member
      obtain ⟨origin, listed, same⟩ := ih element member
      simp only [elementsAll, Tree.elements, Tree.elementsAll_append, List.cons_append, List.mem_cons,
        List.mem_append, List.nil_append] at listed ⊢
      by_cases here : origin = whole
      · exact ⟨own, by simp, by rw [isText.1, ← same, here, isText.2.2]⟩
      · exact ⟨origin, by tauto, same⟩

theorem plain (joined : Merged trees others) (plain : PlainTextsAll trees) : PlainTextsAll others := by
  induction joined with
  | nil => trivial
  | @node element changed children below rest others tag text inner next ih nextIH =>
      obtain ⟨⟨leaf, empty, properties, children⟩, behind⟩ := plain
      refine ⟨⟨?_, ?_, ?_, ih children⟩, nextIH behind⟩
      · intro isText
        have none := leaf (tag.symm.trans isText)
        subst none
        cases inner
        rfl
      · intro notText
        rw [text]
        exact empty fun isText => notText (tag.trans isText)
      · intro isProperties element member isText
        obtain ⟨origin, listed, same⟩ := inner.exists_tag element member
        exact properties (tag.symm.trans isProperties) origin listed (same.trans isText)
  | join isRun properties isText content next ih =>
      exact ih ⟨plain_join isRun.1 isText.2.2 plain.1, plain.2.2⟩

/-- Joining runs does not change what trees say. -/
theorem textOf_eq (joined : Merged trees others) (plain : PlainTextsAll trees) :
    textOf (elementsAll others) = textOf (elementsAll trees) := by
  induction joined with
  | nil => rfl
  | node tag text inner next ih nextIH =>
      rw [elementsAll, elementsAll, Tree.elements, Tree.elements, Tree.textOf_append, Tree.textOf_append,
        Tree.textOf_cons, Tree.textOf_cons, text, ih plain.1.2.2.2, nextIH plain.2]
  | @join first second front back front' back' own taken whole rest others isRun properties isText
        content next ih =>
      have joinedPlain := plain_join isRun.1 isText.2.2 plain.1
      rw [ih ⟨joinedPlain, plain.2.2⟩, elementsAll, elementsAll, elementsAll, Tree.textOf_append,
        Tree.textOf_append, Tree.textOf_append, ← String.append_assoc, ← Tree.allText, ← Tree.allText,
        ← Tree.allText, allText_join isRun properties content plain.1 plain.2.1 joinedPlain]

theorem forall_text (joined : Merged trees others) (holds : String → Prop)
    (append : ∀ {front back : String}, holds front → holds back → holds (front ++ back))
    (all : ∀ element ∈ elementsAll trees, holds element.text) :
    ∀ element ∈ elementsAll others, holds element.text := by
  induction joined with
  | nil => simp [elementsAll]
  | node tag text inner next ih nextIH =>
      simp only [elementsAll, Tree.elements, List.cons_append, List.forall_mem_cons,
        List.forall_mem_append] at all ⊢
      exact ⟨text ▸ all.1, ih all.2.1, nextIH all.2.2⟩
  | join isRun properties isText content next ih =>
      simp only [elementsAll, Tree.elements, Tree.elementsAll_append, List.cons_append,
        List.forall_mem_cons, List.forall_mem_append, List.nil_append] at all ih
      obtain ⟨top, ⟨before, own, after⟩, -, ⟨-, taken, -⟩, behind⟩ := all
      exact ih ⟨top, ⟨before, content ▸ append own taken, after⟩, behind⟩

theorem not_located_of_run {first own : Element} {front back : List Tree}
    (plain : PlainTexts (.node first (front ++ .node own [] :: back))) (isText : own.tag = text)
    (properties : ∀ tree ∈ front ++ back, tree.element.tag = runProperties)
    {row : Tree} (isRow : Filling.rowTags.contains row.element.tag = true)
    (filled : row.allText ≠ "") {tags : List String} {before after : String}
    (located : Located row tags before after (front ++ .node own [] :: back)) : False := by
  obtain ⟨left, tree, right, path, whole, leads, -⟩ := located.exists_path
  have member : tree ∈ front ++ .node own [] :: back := by simp [whole]
  by_cases isOwn : tree = .node own []
  · subst isOwn
    cases path with
    | nil =>
        simp only [Tree.at?, Option.some.injEq] at leads
        rw [← leads, Tree.element, isText] at isRow
        exact absurd isRow (by decide)
    | cons position path => simp [Tree.at?] at leads
  · have listed : tree ∈ front ++ back := by
      simp only [List.mem_append, List.mem_cons] at member ⊢
      tauto
    obtain ⟨-, -, -, children⟩ := plain
    obtain ⟨before, -, after⟩ := plainTextsAll_append.mp children
    have none := text_eq_of_properties (plainTextsAll_append.mpr ⟨before, after⟩) properties
    apply filled
    refine textOf_eq_empty fun element inside => none element ?_
    obtain ⟨ahead, behind, same⟩ := Tree.elements_of_at? leads
    rw [Tree.elementsAll_eq, List.mem_flatMap]
    exact ⟨tree, listed, by simp [same, inside]⟩

/-- A row that says something stands where it stood when runs have been joined. -/
theorem located (joined : Merged trees others) (plain : PlainTextsAll trees) {row : Tree}
    (isRow : Filling.rowTags.contains row.element.tag = true) (filled : row.allText ≠ "")
    {tags : List String} {before after : String} (located : Located row tags before after trees) :
    ∃ row', Located row' tags before after others ∧ Merged [row] [row'] := by
  induction joined generalizing tags before after with
  | nil => nomatch located
  | @node element changed children below rest others tag text inner next ih nextIH =>
      have same : Tree.allText (.node changed below) = Tree.allText (.node element children) := by
        rw [Tree.allText, Tree.allText, Tree.elements, Tree.elements, Tree.textOf_cons, Tree.textOf_cons,
          text, inner.textOf_eq plain.1.2.2.2]
      cases located with
      | here =>
          refine ⟨.node changed below, ?_, .node tag text inner .nil⟩
          rw [← next.textOf_eq plain.2]
          exact .here
      | inside deeper =>
          obtain ⟨row', placed, rowJoined⟩ := ih plain.1.2.2.2 deeper
          refine ⟨row', ?_, rowJoined⟩
          rw [← next.textOf_eq plain.2, ← tag, ← text]
          exact placed.inside
      | later behind =>
          obtain ⟨row', placed, rowJoined⟩ := nextIH plain.2 behind
          refine ⟨row', ?_, rowJoined⟩
          rw [← same]
          exact placed.later
  | @join first second front back front' back' own taken whole rest others isRun properties isText
        content next ih =>
      obtain ⟨here, there⟩ := List.forall_mem_append.mp properties
      have joinedPlain := plain_join isRun.1 isText.2.2 plain.1
      have notRun : row.element.tag ≠ run := by
        intro same
        rw [same] at isRow
        exact absurd isRow (by decide)
      cases located with
      | here => exact absurd isRun.1 notRun
      | inside deeper =>
          exact (not_located_of_run plain.1 isText.1 here isRow filled deeper).elim
      | later behind =>
          cases behind with
          | here => exact absurd isRun.2 notRun
          | inside deeper =>
              exact (not_located_of_run plain.2.1 isText.2.1 there isRow filled deeper).elim
          | later further =>
              refine ih ⟨joinedPlain, plain.2.2⟩ ?_
              rw [← String.append_assoc,
                ← allText_join isRun properties content plain.1 plain.2.1 joinedPlain]
              exact further.later

end Merged

/-- The second tree says what the first one does, in texts that are put together from its texts. -/
structure Retells (first second : Tree) : Prop where
  tag : second.element.tag = first.element.tag
  allText : second.allText = first.allText
  tagsBelow : second.tagsBelow ⊆ first.tagsBelow
  texts : ∀ {holds : String → Prop},
    (∀ {front back : String}, holds front → holds back → holds (front ++ back)) →
      (∀ element ∈ first.elements, holds element.text) →
        ∀ element ∈ second.elements, holds element.text

theorem Retells.refl (tree : Tree) : Retells tree tree :=
  ⟨rfl, rfl, List.Subset.refl _, fun _ all => all⟩

theorem Retells.trans {first second third : Tree} (left : Retells first second)
    (right : Retells second third) : Retells first third :=
  ⟨right.tag.trans left.tag, right.allText.trans left.allText,
    List.Subset.trans right.tagsBelow left.tagsBelow,
    fun append all => right.texts append (left.texts append all)⟩

theorem Merged.retold {first second : Tree} (joined : Merged [first] [second])
    (plain : PlainTexts first) : Retells first second where
  tag := by
    cases joined with
    | node tag _ _ _ => exact tag
  allText := by
    have same := joined.textOf_eq ⟨plain, trivial⟩
    simpa [Tree.allText, elementsAll] using same
  tagsBelow := by
    cases joined with
    | node _ _ inner _ =>
        intro tag member
        obtain ⟨element, listed, rfl⟩ := List.mem_map.mp member
        obtain ⟨origin, listed, same⟩ := inner.exists_tag element listed
        exact List.mem_map.mpr ⟨origin, listed, same⟩
  texts := fun append all => by
    have kept := joined.forall_text _ append (by simpa [elementsAll] using all)
    simpa [elementsAll] using kept

theorem plainTexts_of_located {row : Tree} {tags : List String} {before after : String}
    {trees : List Tree} (located : Located row tags before after trees)
    (plain : PlainTextsAll trees) : PlainTexts row := by
  induction located with
  | here => exact plain.1
  | inside _ ih => exact ih plain.1.2.2.2
  | later _ ih => exact ih plain.2

theorem plain_of_steps {trees others : List Tree} (steps : ReflTransGen Merged trees others)
    (plain : PlainTextsAll trees) : PlainTextsAll others := by
  induction steps with
  | refl => exact plain
  | tail _ step ih => exact step.plain ih

theorem forall_text_of_steps {trees others : List Tree} (steps : ReflTransGen Merged trees others)
    (holds : String → Prop)
    (append : ∀ {front back : String}, holds front → holds back → holds (front ++ back))
    (all : ∀ element ∈ elementsAll trees, holds element.text) :
    ∀ element ∈ elementsAll others, holds element.text := by
  induction steps with
  | refl => exact all
  | tail _ step ih => exact step.forall_text holds append ih

theorem located_of_steps {trees others : List Tree} (steps : ReflTransGen Merged trees others)
    (plain : PlainTextsAll trees) {row : Tree}
    (isRow : Filling.rowTags.contains row.element.tag = true) (filled : row.allText ≠ "")
    {tags : List String} {before after : String} (located : Located row tags before after trees) :
    ∃ row', Located row' tags before after others ∧ Retells row row' := by
  induction steps with
  | refl => exact ⟨row, located, .refl row⟩
  | tail taken step ih =>
      obtain ⟨middle, placed, retold⟩ := ih
      have between := plain_of_steps taken plain
      obtain ⟨row', there, joined⟩ := step.located between (retold.tag ▸ isRow)
        (retold.allText ▸ filled) placed
      exact ⟨row', there, retold.trans (joined.retold (plainTexts_of_located placed between))⟩

end WordTemplate.Wordml
