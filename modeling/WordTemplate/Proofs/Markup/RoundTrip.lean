import WordTemplate.Proofs.Markup.Edits
import WordTemplate.Proofs.Markup.Written

/-! Writing a document and reading it again gives the same live tree. -/

namespace WordTemplate.Markup

/-- A tree that can be written and read again: no text beside children would be taken for layout. -/
inductive Tree.Writable : Tree → Prop
  | node {element : Element} {children : List Tree} (writable : element.Writable)
      (layout : children ≠ [] → Text.isAllBlank element.text.toList = true → element.text = "")
      (below : ∀ child ∈ children, child.Writable) : Tree.Writable (.node element children)

namespace Stage

/-- The stage that a text leads to, and whether a declaration is met on the way. -/
def outcome (stage : Stage) (source : List Char) : Stage × Bool :=
  ((stage.run (Token.scan source).1).1, (stage.taken (Token.scan source).1).contains .declaration)

theorem outcome_step {stage next : Stage} {source after : List Char} {token : Token}
    (read : Token.next? source = some (token, after)) (step : stage.step? token = some next) :
    stage.outcome source =
      ((next.outcome after).1, decide (token = .declaration) || (next.outcome after).2) := by
  have scanned : (Token.scan source).1 = token :: (Token.scan after).1 := by
    rw [Token.scan]
    split
    · rename_i found behind same
      rw [read, Option.some.injEq, Prod.mk.injEq] at same
      obtain ⟨rfl, rfl⟩ := same
      rfl
    · rename_i none
      rw [read] at none
      simp at none
  simp [outcome, scanned, run, taken, step, eq_comm]

theorem outcome_of_next? {stage next : Stage} {source after : List Char} {token : Token}
    (read : Token.next? source = some (token, after)) (step : stage.step? token = some next)
    (other : token ≠ .declaration) : stage.outcome source = next.outcome after := by
  rw [outcome_step read step, decide_eq_false other, Bool.false_or]

theorem addText_addText (stage : Stage) (first second : List Char) :
    (stage.addText first).addText second = stage.addText (first ++ second) := by
  cases stage with
  | inside inner outer => simp [addText, Frame.addText]
  | beforeRoot => rfl
  | afterRoot root stray => rfl

theorem addText_nil (stage : Stage) : stage.addText [] = stage := by
  cases stage with
  | inside inner outer => simp [addText, Frame.addText]
  | beforeRoot => rfl
  | afterRoot root stray => rfl

theorem outcome_data (stage : Stage) {c : Char} (data : Token.isData c = true)
    (source : List Char) : stage.outcome (c :: source) = (stage.addText [c]).outcome source := by
  have marks : ∀ {c : Char}, Token.isData c = true → c ≠ '<' ∧ c ≠ '&' := by
    intro c data
    simpa [Token.isData] using data
  have next : ∀ {c : Char} (source : List Char), Token.isData c = true →
      Token.next? (c :: source) =
        some (.text (c :: source.takeWhile Token.isData), source.dropWhile Token.isData) := by
    intro c source data
    simp [Token.next?, marks data]
  rw [outcome_of_next? (next source data) rfl (by simp)]
  cases source with
  | nil => rfl
  | cons d source =>
      by_cases more : Token.isData d = true
      · have read : (stage.addText [c]).outcome (d :: source) =
            ((stage.addText [c]).addText (d :: source.takeWhile Token.isData)).outcome
              (source.dropWhile Token.isData) :=
          outcome_of_next? (next source more) rfl (by simp)
        rw [read, addText_addText]
        simp [more]
      · simp [more]

/-- A text is taken as it was before it was escaped. -/
theorem outcome_escapeText (stage : Stage) (text rest : List Char) :
    stage.outcome (escapeText text ++ rest) = (stage.addText text).outcome rest := by
  induction text generalizing stage with
  | nil =>
      rw [addText_nil]
      rfl
  | cons c text ih =>
      have step : escapeText (c :: text) = escapeTextChar c ++ escapeText text := rfl
      have whole : stage.addText (c :: text) = (stage.addText [c]).addText text := by
        rw [addText_addText, List.singleton_append]
      rw [step, List.append_assoc, whole, ← ih]
      rcases escapeTextChar_cases c with ⟨data, kept⟩ | ⟨name, names, escaped⟩
      · rw [kept, List.singleton_append, outcome_data stage data]
      · have read := Token.next?_reference names (escapeText text ++ rest)
        have taken : stage.step? (.reference name) = some (stage.addText [c]) := by
          rw [step?, names.text]
        rw [escaped, outcome_of_next? read taken (by simp)]

/-- The stage with these elements open, innermost first, before anything behind the root. -/
def within : List Frame → Stage
  | [] => beforeRoot
  | inner :: outer => inside inner outer

theorem openElement_within (frames : List Frame) (tag : String) (attributes : List Attribute) :
    (within frames).openElement tag attributes =
      within (Frame.start tag attributes :: frames) := by
  cases frames <;> rfl

theorem closeElement?_within (inner : Frame) (frames : List Frame) :
    (within (inner :: frames)).closeElement? inner.element.tag =
      some ((within frames).addElement inner.close) := by
  cases frames <;> simp [within, closeElement?, addElement]

end Stage

namespace Frame

theorem foldl_addChild (frame : Frame) (trees : List Tree) :
    trees.foldl addChild frame = ⟨frame.element, trees.reverse ++ frame.children⟩ := by
  induction trees generalizing frame with
  | nil => rfl
  | cons tree rest ih => rw [List.foldl_cons, ih]; simp [addChild]

theorem close_written {element : Element} {children : List Tree}
    (layout : children ≠ [] → Text.isAllBlank element.text.toList = true → element.text = "") :
    (Frame.mk element children.reverse).close = .node element children := by
  by_cases dropped : (!children.reverse.isEmpty && Text.isAllBlank element.text.toList) = true
  · have parts := Bool.and_eq_true_iff.mp dropped
    have some : children ≠ [] := by
      rintro rfl
      simp at parts
    have none := layout some parts.2
    rw [close, dropLayout, if_pos dropped, tree, List.reverse_reverse, ← none]
  · rw [close, dropLayout, if_neg dropped, tree, List.reverse_reverse]

end Frame

namespace Stage

theorem outcome_writeAll (again : Tree → Tree) {trees : List Tree}
    (read : ∀ tree ∈ trees, ∀ (frames : List Frame) (rest : List Char),
      (within frames).outcome (tree.write ++ rest) =
        ((within frames).addElement (again tree)).outcome rest)
    (inner : Frame) (outer : List Frame) (rest : List Char) :
    (within (inner :: outer)).outcome (Tree.writeAll trees ++ rest) =
      (within ((trees.map again).foldl Frame.addChild inner :: outer)).outcome rest := by
  induction trees generalizing inner with
  | nil => rfl
  | cons tree others ih =>
      rw [Tree.writeAll, List.append_assoc, read tree (by simp), List.map_cons, List.foldl_cons]
      exact ih (fun tree member => read tree (List.mem_cons_of_mem _ member)) (inner.addChild (again tree))

/-- An element is read as it is closed, with its children as they are read. -/
theorem outcome_element (again : Tree → Tree) {element : Element} {children : List Tree}
    (legible : element.Legible)
    (read : ∀ tree ∈ children, ∀ (frames : List Frame) (rest : List Char),
      (within frames).outcome (tree.write ++ rest) =
        ((within frames).addElement (again tree)).outcome rest)
    (frames : List Frame) (rest : List Char) :
    (within frames).outcome ((Tree.node element children).write ++ rest) =
      ((within frames).addElement (Frame.mk element (children.map again).reverse).close).outcome rest := by
  rw [Tree.write]
  split
  · rename_i bare
    simp only [Bool.and_eq_true, List.isEmpty_iff, String.isEmpty_iff] at bare
    have same : ({ tag := element.tag, attributes := element.attributes } : Element) = element := by
      rw [← bare.2]
    have taken : (within frames).step? (.empty element.tag element.attributes) =
        some ((within frames).addElement (Frame.mk element (children.map again).reverse).close) := by
      rw [step?, same, bare.1, List.map_nil, Frame.close_written (by simp)]
    exact outcome_of_next? (Token.next?_empty legible rest) taken (by simp)
  · have opened : (within frames).step? (.opening element.tag element.attributes) =
        some (within (Frame.start element.tag element.attributes :: frames)) := by
      rw [step?, openElement_within]
    have texted : (within (Frame.start element.tag element.attributes :: frames)).addText
        element.text.toList = within (⟨element, []⟩ :: frames) := by
      simp [within, addText, Frame.addText, Frame.start]
    have filled := Frame.foldl_addChild ⟨element, []⟩ (children.map again)
    have closed := closeElement?_within ⟨element, (children.map again).reverse⟩ frames
    have source : Tree.writeStart element ++ '>' :: escapeText element.text.toList ++
        Tree.writeAll children ++ '<' :: '/' :: element.tag.toList ++ ['>'] ++ rest =
          Tree.writeStart element ++ '>' :: (escapeText element.text.toList ++
            (Tree.writeAll children ++ ('<' :: '/' :: element.tag.toList ++ ['>'] ++ rest))) := by
      simp
    rw [source, outcome_of_next? (Token.next?_opening legible _) opened (by simp),
      outcome_escapeText, texted, outcome_writeAll again read, filled, List.append_nil]
    exact outcome_of_next? (Token.next?_closing legible rest) closed (by simp)

theorem outcome_write {tree : Tree} (writable : tree.Writable) (frames : List Frame)
    (rest : List Char) :
    (within frames).outcome (tree.write ++ rest) =
      ((within frames).addElement tree).outcome rest := by
  induction writable generalizing frames rest with
  | @node element children writable layout below ih =>
      rw [outcome_element id writable.legible ih, List.map_id, Frame.close_written layout]

end Stage

theorem Token.next?_declarationLine (rest : List Char) :
    Token.next? (Document.declarationLine.toList ++ rest) =
      some (.declaration, "\r\n".toList ++ rest) := rfl

namespace Stage

theorem outcome_declarationLine (source : List Char) :
    beforeRoot.outcome (Document.declarationLine.toList ++ source) =
      ((beforeRoot.outcome source).1, true) := by
  have line := Token.next?_declarationLine source
  have skipped : beforeRoot.outcome ("\r\n".toList ++ source) = beforeRoot.outcome source :=
    (outcome_data beforeRoot (by decide) _).trans (outcome_data beforeRoot (by decide) _)
  rw [outcome_step line rfl, skipped]
  rfl

theorem outcome_behind_declaration {tree root : Tree}
    (read : beforeRoot.outcome tree.write = (afterRoot root [], false)) (declared : Bool) :
    beforeRoot.outcome ((if declared then Document.declarationLine.toList else []) ++ tree.write) =
      (afterRoot root [], declared) := by
  cases declared with
  | false => simpa using read
  | true => rw [if_pos rfl, outcome_declarationLine, read]

theorem outcome_root {tree root : Tree} (read : (within []).outcome (tree.write ++ []) =
    ((within []).addElement root).outcome []) :
    beforeRoot.outcome tree.write = (afterRoot root [], false) := by
  rw [List.append_nil] at read
  refine read.trans ?_
  simp [outcome, Token.scan, Token.next?, run, taken, within, addElement]

end Stage

theorem Tree.head?_write (tree : Tree) : tree.write.head? = some '<' := by
  cases tree with
  | node element children =>
      rw [Tree.write]
      split <;> rfl

namespace Document

variable {document : Document}

theorem WellFormed.liveTree (wellFormed : document.WellFormed) (id : NodeId) :
    document.liveTree id = document.linkedTree id := by
  rw [Document.liveTree, linkedTree]
  generalize document.size = depth
  induction depth generalizing id with
  | zero => rfl
  | succ depth ih =>
      have shown : (document.children id).filter document.isLive = document.children id := by
        rw [List.filter_eq_self]
        exact fun child lists => wellFormed.child_live lists
      simp only [treeTo, shown, List.filter_true]
      congr 1
      exact List.map_congr_left fun child _ => ih child

theorem toList_write (live : document.isLive document.root = true) :
    document.write.toList = (if document.declared then declarationLine.toList else []) ++
      (document.linkedTree document.root).write := by
  rw [write, writeNode, if_pos live, String.toList_append, String.toList_ofList]
  cases document.declared <;> rfl

/-- A text that is taken as one root holds the document with that root. -/
theorem parse_of_outcome {text : String} {declared : Bool} {tree root : Tree}
    (source : text.toList = (if declared then declarationLine.toList else []) ++ tree.write)
    (taken : Stage.beforeRoot.outcome tree.write = (.afterRoot root [], false)) :
    parse text = .ok (ofTree declared root) := by
  have outcome := Stage.outcome_behind_declaration taken declared
  have start : text.toList.head? = some '<' := by
    rw [source]
    cases declared
    · exact tree.head?_write
    · rfl
  have read : Source.read text.toList = .ok ⟨declared, root⟩ := by
    rw [← source] at outcome
    have whole : (Stage.beforeRoot.run (Token.scan text.toList).1).1 = .afterRoot root [] :=
      congrArg Prod.fst outcome
    have marked : (Stage.beforeRoot.taken (Token.scan text.toList).1).contains .declaration =
        declared := congrArg Prod.snd outcome
    rw [Source.read, start, if_neg (by decide)]
    simp only [whole, marked, Stage.root?]
  rw [parse, read]
  rfl

/-- A document is read as it was written. -/
theorem parse_write (wellFormed : document.WellFormed) (live : document.isLive document.root = true)
    (writable : (document.liveTree document.root).Writable) :
    ∃ read, parse document.write = .ok read ∧ read.declared = document.declared ∧
      read.liveTree read.root = document.liveTree document.root := by
  rw [wellFormed.liveTree] at writable ⊢
  have taken := Stage.outcome_root (Stage.outcome_write writable [] [])
  refine ⟨ofTree document.declared (document.linkedTree document.root), ?_, rfl, ?_⟩
  · exact parse_of_outcome (toList_write live) taken
  · exact liveTree_ofTree document.declared _

/-- Marks in a text and in a value, and blanks at the ends of a text, are read as they were. -/
theorem parse_write_marks :
    let tree : Tree := .node { tag := "w:p", attributes := [⟨"w:id", "\"<a>\" & 'b'"⟩] }
      [.node { tag := "w:t", text := " &lt; ]]> " } [], .node { tag := "w:br" } []]
    ∃ read, parse (ofTree true tree).write = .ok read ∧ read.declared = true ∧
      read.liveTree read.root = tree := by
  intro tree
  have shown := liveTree_ofTree true tree
  have leaf : ∀ element : Element, element.Writable → (Tree.node element []).Writable :=
    fun element writable => .node writable (by simp) (by simp)
  have writable : tree.Writable := by
    refine .node ⟨by decide, by decide, ?_, by decide⟩ (by decide) ?_
    · intro entry member
      rw [List.mem_singleton.mp member]
      decide
    · intro child member
      simp only [List.mem_cons, List.not_mem_nil, or_false] at member
      rcases member with rfl | rfl
      · exact leaf _ ⟨by decide, by decide, by simp, by decide⟩
      · exact leaf _ ⟨by decide, by decide, by simp, by decide⟩
  obtain ⟨read, parsed, declared, same⟩ := parse_write (sound_ofTree true tree).wellFormed
    (by decide) (shown ▸ writable)
  exact ⟨read, parsed, declared, same.trans shown⟩

end Document

end WordTemplate.Markup
