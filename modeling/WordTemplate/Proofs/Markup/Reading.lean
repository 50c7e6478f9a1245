import Mathlib.Data.List.TakeWhile
import WordTemplate.Proofs.Markup.Trees
import WordTemplate.Markup.Document

/-! Reading markup without references. All texts and values that are read from it consist of its own
characters. -/

namespace WordTemplate.Markup

structure Element.Within (allowed : Char → Prop) (element : Element) : Prop where
  text : ∀ c ∈ element.text.toList, allowed c
  value : ∀ entry ∈ element.attributes, ∀ c ∈ entry.value.toList, allowed c

def Tree.Within (allowed : Char → Prop) (tree : Tree) : Prop :=
  ∀ element ∈ tree.elements, element.Within allowed

variable {allowed : Char → Prop}

namespace Token

theorem map_cons_eq_some {c : Char} {cut : Option (List Char × List Char)} {before after : List Char} :
    (cut.map fun parts => (c :: parts.1, parts.2)) = some (before, after) ↔
      ∃ inner, cut = some (inner, after) ∧ c :: inner = before := by
  simp [Option.map_eq_some_iff]

theorem subset_of_cutAt {pattern source before after : List Char}
    (cut : cutAt pattern source = some (before, after)) : before ⊆ source ∧ after ⊆ source := by
  induction source generalizing before with
  | nil => simp [cutAt] at cut
  | cons c rest ih =>
      simp only [cutAt] at cut
      split at cut
      · simp only [Option.some.injEq, Prod.mk.injEq] at cut
        rw [← cut.1, ← cut.2]
        exact ⟨by simp, (List.drop_suffix _ _).subset⟩
      · obtain ⟨inner, found, rfl⟩ := map_cons_eq_some.mp cut
        obtain ⟨inside, behind⟩ := ih found
        exact ⟨List.cons_subset_cons c inside, List.subset_cons_of_subset c behind⟩

theorem subset_of_cutTag {quote : Option Char} {source before after : List Char}
    (cut : cutTag quote source = some (before, after)) : before ⊆ source ∧ after ⊆ source := by
  induction source generalizing quote before with
  | nil => simp [cutTag] at cut
  | cons c rest ih =>
      have onward : ∀ {quote : Option Char} {before : List Char},
          ((cutTag quote rest).map fun parts => (c :: parts.1, parts.2)) =
            some (before, after) → before ⊆ c :: rest ∧ after ⊆ c :: rest := by
        intro quote before mapped
        obtain ⟨inner, found, rfl⟩ := map_cons_eq_some.mp mapped
        obtain ⟨inside, behind⟩ := ih found
        exact ⟨List.cons_subset_cons c inside, List.subset_cons_of_subset c behind⟩
      cases quote with
      | some mark => exact onward cut
      | none =>
          simp only [cutTag] at cut
          split at cut
          · simp only [Option.some.injEq, Prod.mk.injEq] at cut
            rw [← cut.1, ← cut.2]
            exact ⟨by simp, List.subset_cons_self ..⟩
          · exact onward cut

theorem subset_of_cutType {state : TypeState} {source before after : List Char}
    (cut : cutType state source = some (before, after)) : after ⊆ source := by
  induction source generalizing state before with
  | nil => simp [cutType] at cut
  | cons c rest ih =>
      have onward : ∀ {state : TypeState} {before : List Char},
          ((cutType state rest).map fun parts => (c :: parts.1, parts.2)) =
            some (before, after) → after ⊆ c :: rest := by
        intro state before mapped
        obtain ⟨inner, found, rfl⟩ := map_cons_eq_some.mp mapped
        exact List.subset_cons_of_subset c (ih found)
      have done : ∀ {before : List Char},
          some (([] : List Char), rest) = some (before, after) → after ⊆ c :: rest := by
        intro before same
        simp only [Option.some.injEq, Prod.mk.injEq] at same
        rw [← same.2]
        exact List.subset_cons_self ..
      simp only [cutType] at cut
      repeat' split at cut
      all_goals first | exact onward cut | exact done cut

theorem attributeValue_of_no_reference {raw : List Char} (none : '&' ∉ raw) :
    attributeValue raw = raw := by
  have kept : unescapeAttribute? raw = some raw := by
    induction raw with
    | nil => rw [unescapeAttribute?]
    | cons c rest ih =>
        simp only [List.mem_cons, not_or] at none
        rw [unescapeAttribute?, if_neg (Ne.symm none.1), ih none.2]
        rfl
  rw [attributeValue, kept]
  rfl

/-- How one step of reading attributes goes: it ends, it goes on without an attribute, or it reads one
under a new name. -/
inductive ReadsAttribute (seen : List String) (fuel : Nat) (source : List Char) :
    List Attribute → Prop
  | stops : ReadsAttribute seen fuel source []
  | skips {names : List String} {after : List Char} (known : seen ⊆ names) (behind : after ⊆ source) :
      ReadsAttribute seen fuel source (readAttributes names fuel after)
  | reads {key : String} {raw after : List Char} (fresh : key ∉ seen) (nonempty : key.toList ≠ [])
      (spaceless : ∀ c ∈ key.toList, isSpace c = false) (inside : raw ⊆ source)
      (behind : after ⊆ source) :
      ReadsAttribute seen fuel source
        (⟨key, String.ofList (attributeValue raw)⟩ :: readAttributes (key :: seen) fuel after)

theorem readsAttribute (seen : List String) (fuel : Nat) (source : List Char) :
    ReadsAttribute seen fuel source (readAttributes seen (fuel + 1) source) := by
  have dropped : ∀ {holds : Char → Bool} {part : List Char}, part ⊆ source →
      part.dropWhile holds ⊆ source := fun inside =>
    List.Subset.trans (List.dropWhile_suffix _).subset inside
  have begin : source.dropWhile isSpace ⊆ source := dropped (List.Subset.refl source)
  unfold readAttributes
  split
  · exact .stops
  · rename_i first rest lead
    rw [lead] at begin
    have inRest : rest ⊆ source := List.Subset.trans (List.subset_cons_self first rest) begin
    have spaceless : isSpace first = false := by
      have stops := List.head?_dropWhile_not isSpace source
      rw [lead] at stops
      simpa using stops
    have named : ∀ c ∈ first :: rest.takeWhile fun c => !(c = '=' || isSpace c),
        isSpace c = false := by
      refine List.forall_mem_cons.mpr ⟨spaceless, fun c member => ?_⟩
      have kept := List.mem_takeWhile_imp member
      simp only [Bool.not_eq_true', Bool.or_eq_false_iff] at kept
      exact kept.2
    have afterKey : ((rest.dropWhile fun c => !(c = '=' || isSpace c)).dropWhile isSpace) ⊆ source :=
      dropped (dropped inRest)
    simp only
    split
    · rename_i after written
      rw [written] at afterKey
      split
      · exact .skips (List.Subset.refl seen) (dropped afterKey)
      · rename_i fresh
        have inAfter : after.dropWhile isSpace ⊆ source :=
          dropped (List.Subset.trans (List.subset_cons_self ..) afterKey)
        split
        · exact .stops
        · rename_i mark value quoted
          rw [quoted] at inAfter
          have inValue : value ⊆ source := List.Subset.trans (List.subset_cons_self ..) inAfter
          split
          · split
            · rename_i cut
              obtain ⟨inside, behind⟩ := subset_of_cutAt cut
              refine .reads (by simpa using fresh) ?_ ?_ (List.Subset.trans inside inValue)
                (List.Subset.trans behind inValue)
              · rw [String.toList_ofList]
                exact List.cons_ne_nil _ _
              · rwa [String.toList_ofList]
            · exact .stops
          · exact .skips (List.subset_cons_self ..) (dropped inAfter)
    · exact .skips (List.Subset.refl seen) afterKey

/-- The values of attributes consist of characters between the brackets of the tag. -/
theorem value_subset_of_readAttributes {fuel : Nat} {seen : List String} {source : List Char}
    (none : '&' ∉ source) :
    ∀ entry ∈ readAttributes seen fuel source, entry.value.toList ⊆ source := by
  induction fuel generalizing seen source with
  | zero => simp [readAttributes]
  | succ fuel ih =>
      have onward : ∀ {names : List String} {after : List Char}, after ⊆ source →
          ∀ entry ∈ readAttributes names fuel after, entry.value.toList ⊆ source := by
        intro names after inside entry member
        exact List.Subset.trans (ih (fun there => none (inside there)) entry member) inside
      have step := readsAttribute seen fuel source
      generalize readAttributes seen (fuel + 1) source = entries at step ⊢
      cases step with
      | stops => simp
      | skips _ behind => exact onward behind
      | reads _ _ _ inside behind =>
          refine List.forall_mem_cons.mpr ⟨?_, onward behind⟩
          rw [String.toList_ofList, attributeValue_of_no_reference fun there => none (inside there)]
          exact inside

def Within (allowed : Char → Prop) : Token → Prop
  | opening _ attributes => ∀ entry ∈ attributes, ∀ c ∈ entry.value.toList, allowed c
  | empty _ attributes => ∀ entry ∈ attributes, ∀ c ∈ entry.value.toList, allowed c
  | text content => ∀ c ∈ content, allowed c
  | reference _ => False
  | closing _ => True
  | declaration => True
  | ignored => True

theorem within_ofStart (noReference : ¬ allowed '&') {content : List Char}
    (plain : ∀ c ∈ content, allowed c) : (ofStart content).Within allowed := by
  have read : ∀ {part : List Char}, part ⊆ content →
      ∀ entry ∈ (readStart part).2, ∀ c ∈ entry.value.toList, allowed c := by
    intro part inside entry member c written
    have tail : part.dropWhile (fun c => !isSpace c) ⊆ content :=
      List.Subset.trans (List.dropWhile_suffix _).subset inside
    have none : '&' ∉ part.dropWhile (fun c => !isSpace c) :=
      fun there => noReference (plain _ (tail there))
    exact plain c (tail (value_subset_of_readAttributes none entry member written))
  rw [ofStart]
  split
  · exact read (List.dropLast_subset content)
  · exact read (List.Subset.refl content)

theorem within_readBracket? (noReference : ¬ allowed '&') {source after : List Char} {token : Token}
    (plain : ∀ c ∈ source, allowed c) (read : readBracket? source = some (token, after)) :
    token.Within allowed ∧ after ⊆ source := by
  have inside : ∀ {rest part : List Char} {count : Nat}, part ⊆ rest.drop count →
      part ⊆ '!' :: rest := fun cut =>
    List.subset_cons_of_subset _ (List.Subset.trans cut (List.drop_suffix _ _).subset)
  cases reads_of_readBracket? read with
  | closing cut => exact ⟨trivial, List.subset_cons_of_subset _ (subset_of_cutTag cut).2⟩
  | instruction cut =>
      refine ⟨?_, List.subset_cons_of_subset _ (subset_of_cutAt cut).2⟩
      unfold ofInstruction
      repeat' split
      all_goals trivial
  | comment cut => exact ⟨trivial, inside (subset_of_cutAt cut).2⟩
  | data cut =>
      refine ⟨fun c member => ?_, inside (subset_of_cutAt cut).2⟩
      exact plain c (inside (subset_of_cutAt cut).1 member)
  | documentType cut => exact ⟨trivial, inside (subset_of_cutType cut)⟩
  | start _ cut =>
      have parts := subset_of_cutTag cut
      exact ⟨within_ofStart noReference fun c member => plain c (parts.1 member), parts.2⟩

theorem within_next? (noReference : ¬ allowed '&') {source after : List Char} {token : Token}
    (plain : ∀ c ∈ source, allowed c) (read : next? source = some (token, after)) :
    token.Within allowed ∧ after ⊆ source := by
  unfold next? at read
  split at read
  · simp at read
  · rename_i c rest
    have below : ∀ d ∈ rest, allowed d := fun d member => plain d (List.mem_cons_of_mem _ member)
    split at read
    · obtain ⟨within, behind⟩ := within_readBracket? noReference below read
      exact ⟨within, List.subset_cons_of_subset _ behind⟩
    · split at read
      · rename_i mark
        exact absurd (mark ▸ plain c (by simp)) noReference
      · simp only [Option.some.injEq, Prod.mk.injEq] at read
        obtain ⟨rfl, rfl⟩ := read
        refine ⟨fun d member => ?_, List.subset_cons_of_subset _ (List.dropWhile_suffix _).subset⟩
        rcases List.mem_cons.mp member with here | later
        · exact here ▸ plain c (by simp)
        · exact below d ((List.takeWhile_prefix _).subset later)

theorem within_scan (noReference : ¬ allowed '&') {source : List Char}
    (plain : ∀ c ∈ source, allowed c) : ∀ token ∈ (scan source).1, token.Within allowed := by
  induction size : source.length using Nat.strongRecOn generalizing source with
  | ind length ih =>
      intro token member
      rw [scan] at member
      split at member
      · rename_i first after read
        obtain ⟨within, behind⟩ := within_next? noReference plain read
        have shorter := length_of_next? read
        simp only [List.mem_cons] at member
        rcases member with here | later
        · exact here ▸ within
        · exact ih after.length (size ▸ shorter) (fun c inside => plain c (behind inside)) rfl
            token later
      · simp at member

def start? : Token → Option (String × List Attribute)
  | opening tag attributes => some (tag, attributes)
  | empty tag attributes => some (tag, attributes)
  | _ => none

theorem start?_ofInstruction (content : List Char) : (ofInstruction content).start? = none := by
  unfold ofInstruction
  repeat' split
  all_goals rfl

theorem cutTag_of_readBracket? {source after : List Char} {token : Token}
    (read : readBracket? source = some (token, after)) (starts : token.start? ≠ none) :
    (∀ c ∈ source.head?, c ≠ '/' ∧ c ≠ '!' ∧ c ≠ '?') ∧
      ∃ content, cutTag none source = some (content, after) ∧ token = ofStart content := by
  cases reads_of_readBracket? read with
  | closing _ => exact absurd rfl starts
  | instruction _ => exact absurd (start?_ofInstruction _) starts
  | comment _ => exact absurd rfl starts
  | data _ => exact absurd rfl starts
  | documentType _ => exact absurd rfl starts
  | start head cut => exact ⟨head, _, cut, rfl⟩

theorem cutTag_of_mem_scan {source : List Char} {token : Token} (member : token ∈ (scan source).1)
    (starts : token.start? ≠ none) :
    ∃ front content after, (∀ c ∈ front.head?, c ≠ '/' ∧ c ≠ '!' ∧ c ≠ '?') ∧
      cutTag none front = some (content, after) ∧ token = ofStart content := by
  induction size : source.length using Nat.strongRecOn generalizing source with
  | ind length ih =>
      rw [scan] at member
      split at member
      · rename_i first after read
        rcases List.mem_cons.mp member with rfl | later
        · unfold next? at read
          split at read
          · simp at read
          · rename_i c rest
            split at read
            · obtain ⟨head, content, cut, same⟩ := cutTag_of_readBracket? read starts
              exact ⟨rest, content, after, head, cut, same⟩
            · split at read
              · obtain ⟨_, _, same⟩ := Option.bind_eq_some_iff.mp read
                simp only at same
                split at same
                · simp at same
                · cases same
                  exact absurd rfl starts
              · cases read
                exact absurd rfl starts
        · exact ih after.length (size ▸ length_of_next? read) later rfl
      · simp at member

end Token

namespace Frame

structure Within (allowed : Char → Prop) (frame : Frame) : Prop where
  element : frame.element.Within allowed
  children : ∀ child ∈ frame.children, child.Within allowed

theorem Within.tree {frame : Frame} (within : frame.Within allowed) : frame.tree.Within allowed := by
  intro element member
  rw [Frame.tree, Tree.elements, List.mem_cons, Tree.elementsAll_eq, List.mem_flatMap] at member
  rcases member with here | ⟨child, listed, below⟩
  · exact here ▸ within.element
  · exact within.children child (List.mem_reverse.mp listed) element below

theorem Within.close {frame : Frame} (within : frame.Within allowed) :
    frame.close.Within allowed := by
  rw [Frame.close, dropLayout]
  split
  · refine Within.tree ⟨⟨by simp, within.element.value⟩, within.children⟩
  · exact within.tree

theorem Within.addChild {frame : Frame} (within : frame.Within allowed) {child : Tree}
    (inner : child.Within allowed) : (frame.addChild child).Within allowed := by
  refine ⟨within.element, ?_⟩
  intro other member
  rcases List.mem_cons.mp member with here | later
  · exact here ▸ inner
  · exact within.children other later

theorem Within.addText {frame : Frame} (within : frame.Within allowed) {content : List Char}
    (plain : ∀ c ∈ content, allowed c) : (frame.addText content).Within allowed := by
  refine ⟨⟨?_, within.element.value⟩, within.children⟩
  intro c member
  simp only [Frame.addText, String.toList_ofList, List.mem_append] at member
  exact member.elim (within.element.text c) (plain c)

theorem within_start (tag : String) {attributes : List Attribute}
    (values : ∀ entry ∈ attributes, ∀ c ∈ entry.value.toList, allowed c) :
    (start tag attributes).Within allowed :=
  ⟨⟨by simp [start], values⟩, by simp [start]⟩

theorem within_unwind {inner : Tree} {outer : List Frame} (within : inner.Within allowed)
    (around : ∀ frame ∈ outer, frame.Within allowed) : (unwind inner outer).Within allowed := by
  induction outer generalizing inner with
  | nil => exact within
  | cons frame rest ih =>
      have first := around frame (by simp)
      exact ih (first.addChild within).tree fun other member => around other (by simp [member])

end Frame

namespace Stage

/-- What an end tag closes: the root, an element inside another one, or one that was opened behind the
root. -/
inductive Closes : Stage → String → Stage → Prop
  | root (inner : Frame) : Closes (.inside inner []) inner.element.tag (.afterRoot inner.close [])
  | child (inner next : Frame) (others : List Frame) :
      Closes (.inside inner (next :: others)) inner.element.tag
        (.inside (next.addChild inner.close) others)
  | stray (root : Tree) (name : String) (rest : List String) :
      Closes (.afterRoot root (name :: rest)) name (.afterRoot root rest)

theorem closes_of_closeElement? {stage next : Stage} {tag : String}
    (closed : stage.closeElement? tag = some next) : Closes stage tag next := by
  cases stage with
  | beforeRoot => cases closed
  | inside inner outer =>
      simp only [closeElement?] at closed
      split at closed
      · rename_i named
        subst named
        cases outer with
        | nil =>
            cases closed
            exact .root inner
        | cons next others =>
            cases closed
            exact .child inner next others
      · cases closed
  | afterRoot root stray =>
      cases stray with
      | nil => cases closed
      | cons name rest =>
          simp only [closeElement?] at closed
          split at closed
          · rename_i named
            subst named
            cases closed
            exact .stray root tag rest
          · cases closed

def Within (allowed : Char → Prop) : Stage → Prop
  | beforeRoot => True
  | inside inner outer => inner.Within allowed ∧ ∀ frame ∈ outer, frame.Within allowed
  | afterRoot root _ => root.Within allowed

theorem within_step? {stage next : Stage} {token : Token} (within : stage.Within allowed)
    (plain : token.Within allowed) (step : stage.step? token = some next) :
    next.Within allowed := by
  cases token with
  | opening tag attributes =>
      cases step
      have fresh := Frame.within_start tag plain
      cases stage with
      | beforeRoot => exact ⟨fresh, by simp⟩
      | inside inner outer => exact ⟨fresh, List.forall_mem_cons.mpr within⟩
      | afterRoot root stray => exact within
  | empty tag attributes =>
      cases step
      have fresh : (Tree.node { tag, attributes } []).Within allowed :=
        (Frame.within_start tag plain).tree
      cases stage with
      | beforeRoot => exact fresh
      | inside inner outer => exact ⟨within.1.addChild fresh, within.2⟩
      | afterRoot root stray => exact within
  | closing tag =>
      cases closes_of_closeElement? step with
      | root inner => exact within.1.close
      | child inner next others =>
          obtain ⟨first, rest⟩ := List.forall_mem_cons.mp within.2
          exact ⟨first.addChild within.1.close, rest⟩
      | stray root name rest => exact within
  | text content =>
      cases step
      cases stage with
      | beforeRoot => exact within
      | inside inner outer => exact ⟨within.1.addText plain, within.2⟩
      | afterRoot root stray => exact within
  | reference name => exact plain.elim
  | declaration =>
      cases step
      exact within
  | ignored =>
      cases step
      exact within

theorem within_run {stage : Stage} {tokens : List Token} (within : stage.Within allowed)
    (plain : ∀ token ∈ tokens, token.Within allowed) : (stage.run tokens).1.Within allowed := by
  induction tokens generalizing stage with
  | nil => exact within
  | cons token rest ih =>
      rw [run]
      split
      · rename_i next step
        exact ih (within_step? within (plain token (by simp)) step)
          fun other member => plain other (by simp [member])
      · exact within

theorem within_root? {stage : Stage} {root : Tree} (within : stage.Within allowed)
    (found : stage.root? = some root) : root.Within allowed := by
  cases stage with
  | beforeRoot => simp [root?] at found
  | inside inner outer =>
      cases found
      exact Frame.within_unwind within.1.tree within.2
  | afterRoot root stray =>
      cases found
      exact within

end Stage

theorem Source.within_read (noReference : ¬ allowed '&') {text : List Char} {source : Source}
    (plain : ∀ c ∈ text, allowed c) (read : Source.read text = .ok source) :
    source.root.Within allowed := by
  unfold Source.read at read
  have begun : (if text.head? = some '\uFEFF' then text.tail else text) ⊆ text := by
    split
    · exact (List.tail_suffix text).subset
    · exact List.Subset.refl text
  generalize (if text.head? = some '\uFEFF' then text.tail else text) = rest at begun read
  have tokens := Token.within_scan noReference fun c member => plain c (begun member)
  have start : Stage.Within allowed .beforeRoot := trivial
  have stage := Stage.within_run start tokens
  simp only at read
  split at read
  · rename_i root found
    cases read
    exact Stage.within_root? stage found
  · simp at read

namespace Document

mutual

theorem map_toElement_layOut (isNew : Bool) (parent : Option NodeId) (first : NodeId) (tree : Tree) :
    (tree.layOut isNew parent first).map Node.toElement = tree.elements := by
  cases tree with
  | node element children =>
      rw [Tree.layOut, List.map_cons, map_toElement_layOutAll, Tree.elements]

theorem map_toElement_layOutAll (isNew : Bool) (parent : Option NodeId) (first : NodeId)
    (trees : List Tree) :
    (Tree.layOutAll isNew parent first trees).map Node.toElement = Tree.elementsAll trees := by
  cases trees with
  | nil => rfl
  | cons tree rest =>
      rw [Tree.layOutAll, List.map_append, map_toElement_layOut, map_toElement_layOutAll,
        Tree.elementsAll]

end

theorem toElement_ofTree (declared : Bool) (tree : Tree) (id : NodeId) :
    ((ofTree declared tree).node id).toElement ∈ tree.elements ∨
      (ofTree declared tree).node id = Node.absent := by
  rw [node, ofTree, Array.getD_eq_getD_getElem?, List.getElem?_toArray]
  cases found : (tree.layOut false none 0)[id]? with
  | none => exact .inr rfl
  | some node =>
      left
      rw [← map_toElement_layOut false none 0 tree]
      exact List.mem_map_of_mem (List.mem_of_getElem? found)

theorem element_treeTo (document : Document) (shown : NodeId → Bool) (depth : Nat) (id : NodeId) :
    (document.treeTo shown depth id).element = (document.node id).toElement := by
  cases depth <;> rfl

theorem elements_below_treeTo (document : Document) (shown : NodeId → Bool) (depth : Nat)
    (id : NodeId) : ∀ element ∈ Tree.elementsAll (document.treeTo shown depth id).children,
      ∃ other, shown other = true ∧ element = (document.node other).toElement := by
  induction depth generalizing id with
  | zero => simp [treeTo, Tree.children, Tree.elementsAll]
  | succ depth ih =>
      intro element member
      rw [treeTo, Tree.children, Tree.elementsAll_eq, List.mem_flatMap] at member
      obtain ⟨child, listed, below⟩ := member
      obtain ⟨origin, inside, rfl⟩ := List.mem_map.mp listed
      rw [← Tree.node_eta (document.treeTo shown depth origin), Tree.elements, element_treeTo,
        List.mem_cons] at below
      rcases below with here | deeper
      · exact ⟨origin, (List.mem_filter.mp inside).2, here⟩
      · exact ih origin element deeper

theorem elements_liveTree (document : Document) (id : NodeId) :
    ∀ element ∈ (document.liveTree id).elements,
      ∃ other, (other = id ∨ document.isLive other = true) ∧
        element = (document.node other).toElement := by
  intro element member
  rw [← Tree.node_eta (document.liveTree id), Tree.elements, List.mem_cons] at member
  rcases member with here | below
  · exact ⟨id, .inl rfl, here.trans (element_treeTo ..)⟩
  · obtain ⟨other, live, same⟩ := elements_below_treeTo document document.isLive _ id element below
    exact ⟨other, .inr live, same⟩

end Document

end WordTemplate.Markup
