import Mathlib
import WordTemplate.Proofs.Markup.Entries
import WordTemplate.Proofs.Markup.Parsed

/-! Reading again what was written of a document that has been read. The names of such a document come
from tags, so that most of them are read as they are written; the layout in elements that the first text
leaves open is dropped the second time, when they are closed. -/

namespace WordTemplate.Markup

/-- What is known of the names that an element starts with when they were read from a tag. -/
structure Started (tag : String) (attributes : List Attribute) : Prop where
  space : ∀ c ∈ tag.toList, Token.isSpace c = false
  head : ∀ c ∈ tag.toList.head?, c ≠ '!' ∧ c ≠ '?'
  bracket : '>' ∈ tag.toList → ∃ c ∈ tag.toList, Token.isQuote c = true
  key : ∀ entry ∈ attributes, entry.key.toList ≠ [] ∧ ∀ c ∈ entry.key.toList, Token.isSpace c = false

namespace Token

theorem quote_of_cutTag {source before after front : List Char}
    (cut : cutTag none source = some (before, after)) (begins : front <+: before) (bracket : '>' ∈ front) :
    ∃ c ∈ front, isQuote c = true := by
  induction source generalizing before front with
  | nil => simp [cutTag] at cut
  | cons c rest ih =>
      simp only [cutTag] at cut
      split at cut
      · cases cut
        rw [List.prefix_nil.mp begins] at bracket
        simp at bracket
      · rename_i inside
        obtain ⟨inner, found, rfl⟩ := map_cons_eq_some.mp cut
        cases front with
        | nil => simp at bracket
        | cons first others =>
            obtain ⟨rfl, further⟩ := List.cons_prefix_cons.mp begins
            by_cases quote : isQuote first = true
            · exact ⟨first, List.mem_cons_self .., quote⟩
            · rw [if_neg quote] at found
              have later : '>' ∈ others := (List.mem_cons.mp bracket).resolve_left (Ne.symm inside)
              obtain ⟨c, member, quoted⟩ := ih found further later
              exact ⟨c, List.mem_cons_of_mem _ member, quoted⟩

theorem key_of_readAttributes {fuel : Nat} {seen : List String} {source : List Char} :
    ∀ entry ∈ readAttributes seen fuel source, entry.key.toList ≠ [] ∧
      ∀ c ∈ entry.key.toList, isSpace c = false := by
  induction fuel generalizing seen source with
  | zero => simp [readAttributes]
  | succ fuel ih =>
      have step := readsAttribute seen fuel source
      generalize readAttributes seen (fuel + 1) source = entries at step ⊢
      cases step with
      | stops => simp
      | skips => exact ih
      | reads _ nonempty spaceless => exact List.forall_mem_cons.mpr ⟨⟨nonempty, spaceless⟩, ih⟩

theorem head?_of_cutTag {source before after : List Char} {c : Char}
    (cut : cutTag none source = some (before, after)) (first : c ∈ before.head?) : c ∈ source.head? := by
  cases source with
  | nil => simp [cutTag] at cut
  | cons mark rest =>
      simp only [cutTag] at cut
      split at cut
      · cases cut
        cases first
      · obtain ⟨_, _, rfl⟩ := map_cons_eq_some.mp cut
        exact first

theorem started_readStart {source content after part : List Char}
    (head : ∀ c ∈ source.head?, c ≠ '/' ∧ c ≠ '!' ∧ c ≠ '?')
    (cut : cutTag none source = some (content, after)) (begins : part <+: content) :
    Started (readStart part).1 (readStart part).2 := by
  have tag : (readStart part).1.toList = part.takeWhile fun c => !isSpace c := by
    rw [readStart, String.toList_ofList]
  have front : (part.takeWhile fun c => !isSpace c) <+: content :=
    (List.takeWhile_prefix _).trans begins
  refine ⟨?_, ?_, ?_, key_of_readAttributes⟩
  · intro c member
    rw [tag] at member
    simpa using List.mem_takeWhile_imp member
  · intro c first
    rw [tag] at first
    have first : c ∈ content.head? := by
      obtain ⟨others, same⟩ := List.head?_eq_some_iff.mp first
      rw [same] at front
      obtain ⟨rest, rfl⟩ := front
      rfl
    exact (head c (head?_of_cutTag cut first)).2
  · rw [tag]
    exact quote_of_cutTag cut front

theorem started_of_mem_scan {source : List Char} {token : Token} (member : token ∈ (scan source).1)
    {tag : String} {attributes : List Attribute} (starts : token.start? = some (tag, attributes)) :
    Started tag attributes := by
  obtain ⟨front, content, after, head, cut, rfl⟩ := cutTag_of_mem_scan member (by simp [starts])
  unfold ofStart at starts
  split at starts
  · cases starts
    exact started_readStart head cut (List.dropLast_prefix content)
  · cases starts
    exact started_readStart head cut (List.prefix_refl content)

end Token

theorem Stage.taken_subset (stage : Stage) (tokens : List Token) : stage.taken tokens ⊆ tokens := by
  induction tokens generalizing stage with
  | nil => exact List.Subset.refl _
  | cons token rest ih =>
      rw [taken]
      split
      · exact List.cons_subset_cons token (ih _)
      · exact List.nil_subset _

namespace Tally

theorem mem_begun_step {tally : Tally} {token : Token} {entry : String × List Attribute}
    (member : entry ∈ (tally.step token).begun) : entry ∈ tally.begun ∨ token.start? = some entry := by
  cases token with
  | opening | empty =>
      rw [step] at member
      split at member
      · rcases List.mem_append.mp member with old | new
        · exact .inl old
        · exact .inr (List.mem_singleton.mp new ▸ rfl)
      · exact .inl member
  | closing =>
      rw [step] at member
      split at member
      · exact .inl member
      · exact .inl member
  | text | reference | declaration | ignored => exact .inl member

theorem mem_begun_count {tally : Tally} {tokens : List Token} {entry : String × List Attribute}
    (member : entry ∈ (tally.count tokens).begun) :
    entry ∈ tally.begun ∨ ∃ token ∈ tokens, token.start? = some entry := by
  induction tokens generalizing tally with
  | nil => exact .inl member
  | cons token rest ih =>
      rcases ih member with counted | ⟨other, later, starts⟩
      · rcases mem_begun_step counted with old | starts
        · exact .inl old
        · exact .inr ⟨token, List.mem_cons_self .., starts⟩
      · exact .inr ⟨other, List.mem_cons_of_mem _ later, starts⟩

theorem started_ofText {text : String} {tag : String} {attributes : List Attribute}
    (member : (tag, attributes) ∈ (ofText text).begun) : Started tag attributes := by
  rcases mem_begun_count member with old | ⟨token, taken, starts⟩
  · simp at old
  · exact Token.started_of_mem_scan (Stage.taken_subset _ _ taken) starts

end Tally

/-- The tag and the keys hold no quotes, slashes and equals signs. -/
def Element.PlainNames (element : Element) : Prop :=
  (∀ c ∈ element.tag.toList, c ∉ ['\'', '"', '/', '=']) ∧
    ∀ entry ∈ element.attributes, ∀ c ∈ entry.key.toList, c ∉ ['\'', '"', '/', '=']

theorem Started.legible_tag {tag : String} {attributes : List Attribute} (started : Started tag attributes)
    (plain : ∀ c ∈ tag.toList, c ∉ ['\'', '"', '/', '=']) : Legible tag.toList := by
  refine ⟨started.space, fun c listed member => ?_⟩
  have other := plain c member
  simp only [List.mem_cons, List.not_mem_nil, or_false] at listed
  rcases listed with rfl | rfl | rfl | rfl | rfl
  · obtain ⟨quote, inside, quoted⟩ := started.bracket member
    have none := plain quote inside
    simp [Token.isQuote] at quoted none
    tauto
  all_goals simp at other

theorem Element.legible_of_started {element : Element} (started : Started element.tag element.attributes)
    (plain : element.PlainNames) (bracket : ∀ entry ∈ element.attributes, '>' ∉ entry.key.toList)
    (distinct : DistinctKeys element.attributes) : element.Legible := by
  refine ⟨started.legible_tag plain.1, started.head, fun entry member => ?_, distinct⟩
  obtain ⟨nonempty, space⟩ := started.key entry member
  refine ⟨nonempty, space, fun c listed inside => ?_⟩
  have other := plain.2 entry member c inside
  have noBracket := bracket entry member
  simp only [List.mem_cons, List.not_mem_nil, or_false] at listed
  rcases listed with rfl | rfl | rfl | rfl | rfl
  · exact noBracket inside
  all_goals simp at other

/-! Trees whose tags are read as they were written -/

namespace Tree

mutual

/-- The tree when each of its elements has been closed. -/
def settle : Tree → Tree
  | node element children => (Frame.mk element (settleAll children).reverse).close

def settleAll : List Tree → List Tree
  | [] => []
  | tree :: rest => tree.settle :: settleAll rest

end

theorem settleAll_eq (trees : List Tree) : settleAll trees = trees.map settle := by
  induction trees with
  | nil => rfl
  | cons tree rest ih => rw [settleAll, ih, List.map_cons]

theorem Settled.settle_eq {tree : Tree} (settled : tree.Settled) : tree.settle = tree := by
  induction settled with
  | @node element children layout below ih =>
      have same : settleAll children = children := by
        rw [settleAll_eq, List.map_congr_left ih, List.map_id']
      rw [settle, same, Frame.close_written layout]

end Tree

namespace Stage

open Token (cutTag isQuote)

theorem outcome_settle {tree : Tree} (legible : ∀ element ∈ tree.elements, element.Legible)
    (frames : List Frame) (rest : List Char) :
    (within frames).outcome (tree.write ++ rest) =
      ((within frames).addElement tree.settle).outcome rest := by
  induction tree using Tree.induction generalizing frames rest with
  | node element children ih =>
      rw [Tree.elements, List.forall_mem_cons, Tree.elementsAll_eq] at legible
      rw [Tree.settle, Tree.settleAll_eq]
      refine outcome_element Tree.settle legible.1 (fun child member => ?_) frames rest
      exact ih child member fun inner below => legible.2 inner (List.mem_flatMap.mpr ⟨child, member, below⟩)

theorem step?_ne_beforeRoot {stage next : Stage} {token : Token} (begun : stage ≠ beforeRoot)
    (step : stage.step? token = some next) : next ≠ beforeRoot := by
  cases stage with
  | beforeRoot => exact absurd rfl begun
  | afterRoot root stray =>
      obtain ⟨others, rfl⟩ := step?_afterRoot step
      simp
  | inside inner outer =>
      cases token with
      | closing tag =>
          have closed : (inside inner outer).closeElement? tag = some next := step
          cases closes_of_closeElement? closed with
          | root inner => simp
          | child inner next others => simp
      | opening | empty | text | reference | declaration | ignored =>
          cases step
          simp [openElement, addElement, addText]

theorem run_ne_beforeRoot {stage : Stage} (begun : stage ≠ beforeRoot) (tokens : List Token) :
    (stage.run tokens).1 ≠ beforeRoot := by
  induction tokens generalizing stage with
  | nil => exact begun
  | cons token rest ih =>
      rw [run]
      split
      · rename_i next step
        exact ih (step?_ne_beforeRoot begun step)
      · exact begun

theorem exists_root?_of_ne_beforeRoot {stage : Stage} (begun : stage ≠ beforeRoot) :
    ∃ root, stage.root? = some root := by
  cases stage with
  | beforeRoot => exact absurd rfl begun
  | inside inner outer => exact ⟨_, rfl⟩
  | afterRoot root stray => exact ⟨root, rfl⟩

end Stage

namespace Token

/-- Names without quotes do not hide the end of a tag. -/
theorem isSome_cutTag_append {plain rest : List Char} (quotes : ∀ c ∈ plain, isQuote c = false)
    (ends : (cutTag none rest).isSome) : (cutTag none (plain ++ rest)).isSome := by
  induction plain with
  | nil => exact ends
  | cons c plain ih =>
      obtain ⟨first, others⟩ := List.forall_mem_cons.mp quotes
      rw [List.cons_append, cutTag]
      split
      · rfl
      · simp only [first, Bool.false_eq_true, if_false, Option.isSome_map]
        exact ih others

theorem isSome_cutTag_writeAttribute {entry : Attribute}
    (quotes : ∀ c ∈ entry.key.toList, isQuote c = false) {rest : List Char}
    (ends : (cutTag none rest).isSome) : (cutTag none (Tree.writeAttribute entry ++ rest)).isSome := by
  have value : (cutTag none ('"' :: (escapeAttribute entry.value.toList ++ '"' :: rest))).isSome := by
    have quoted := cutTag_quoted (quote_not_mem_escapeAttribute entry.value.toList) rest
    simp [cutTag, isQuote, quoted, ends]
  have plain : ∀ c ∈ ' ' :: (entry.key.toList ++ ['=']), isQuote c = false := by
    simp only [List.forall_mem_cons, List.forall_mem_append]
    exact ⟨by decide, quotes, by decide, by simp⟩
  simpa [Tree.writeAttribute] using isSome_cutTag_append plain value

theorem isSome_cutTag_writeAttributes {attributes : List Attribute}
    (quotes : ∀ entry ∈ attributes, ∀ c ∈ entry.key.toList, isQuote c = false) {rest : List Char}
    (ends : (cutTag none rest).isSome) :
    (cutTag none (attributes.flatMap Tree.writeAttribute ++ rest)).isSome := by
  induction attributes with
  | nil => exact ends
  | cons entry others ih =>
      obtain ⟨first, later⟩ := List.forall_mem_cons.mp quotes
      rw [List.flatMap_cons, List.append_assoc]
      exact isSome_cutTag_writeAttribute first (ih later)

theorem start?_ofStart (content : List Char) : (ofStart content).start? ≠ none := by
  unfold ofStart
  split <;> simp [start?]

/-- A tag that is written starts an element, though it may end earlier than it was written. -/
theorem next?_write {element : Element} (names : element.PlainNames)
    (head : ∀ c ∈ element.tag.toList.head?, c ≠ '!' ∧ c ≠ '?') (children : List Tree) :
    ∃ token after, next? (Tree.node element children).write = some (token, after) ∧
      token.start? ≠ none := by
  have noQuote : ∀ {name : List Char}, (∀ c ∈ name, c ∉ ['\'', '"', '/', '=']) →
      ∀ c ∈ name, isQuote c = false := by
    intro name plain c member
    have other := plain c member
    simp only [List.mem_cons, List.not_mem_nil, or_false, not_or] at other
    simp [isQuote, other]
  have written : ∃ tail, (Tree.node element children).write = '<' :: (element.tag.toList ++
      (element.attributes.flatMap Tree.writeAttribute ++ tail)) ∧
        (∀ c ∈ tail.head?, c ≠ '/' ∧ c ≠ '!' ∧ c ≠ '?') ∧ (cutTag none tail).isSome := by
    rw [Tree.write]
    split
    · exact ⟨[' ', '/', '>'], by simp [Tree.writeStart], by simp, by decide⟩
    · refine ⟨'>' :: (escapeText element.text.toList ++ (Tree.writeAll children ++
        ('<' :: '/' :: element.tag.toList ++ ['>']))), by simp [Tree.writeStart], by simp, rfl⟩
  obtain ⟨tail, spelled, start, ends⟩ := written
  have slash : '/' ∉ element.tag.toList := fun member => names.1 _ member (by simp)
  have attributes := isSome_cutTag_writeAttributes
    (fun entry member => noQuote (names.2 entry member)) ends
  obtain ⟨⟨content, after⟩, cut⟩ := Option.isSome_iff_exists.mp
    (isSome_cutTag_append (noQuote names.1) attributes)
  refine ⟨ofStart content, after, ?_, start?_ofStart content⟩
  rw [spelled, next?, if_pos rfl, readBracket?_of_start (head_writeStart slash head start), cut]
  rfl

end Token

namespace Stage

theorem outcome_ne_beforeRoot {source after : List Char} {token : Token}
    (read : Token.next? source = some (token, after)) (starts : token.start? ≠ none) :
    (beforeRoot.outcome source).1 ≠ beforeRoot := by
  have taken : ∃ next, beforeRoot.step? token = some next ∧ next ≠ beforeRoot := by
    cases token with
    | opening | empty => exact ⟨_, rfl, by simp [openElement, addElement]⟩
    | closing | text | reference | declaration | ignored => exact absurd rfl starts
  obtain ⟨next, step, begun⟩ := taken
  rw [outcome_step read step]
  exact run_ne_beforeRoot begun _

end Stage

namespace Document

theorem parse_of_begun {text : String} {declared : Bool} {tree : Tree}
    (source : text.toList = (if declared then declarationLine.toList else []) ++ tree.write)
    (begun : (Stage.beforeRoot.outcome tree.write).1 ≠ .beforeRoot) :
    ∃ document, parse text = .ok document := by
  have start : text.toList.head? = some '<' := by
    rw [source]
    cases declared
    · exact tree.head?_write
    · rfl
  have body : Source.body text.toList = text.toList := by
    rw [Source.body, start, if_neg (by decide)]
  have begun : (Stage.beforeRoot.outcome text.toList).1 ≠ .beforeRoot := by
    rw [source]
    cases declared with
    | false => simpa using begun
    | true => rwa [if_pos rfl, Stage.outcome_declarationLine]
  obtain ⟨root, found⟩ := Stage.exists_root?_of_ne_beforeRoot begun
  exact ⟨_, parse_eq_ok_iff.mpr ⟨root, body.symm ▸ found, rfl⟩⟩

theorem parse_write_of_legible {tree : Tree} (legible : ∀ element ∈ tree.elements, element.Legible)
    (declared : Bool) : parse (ofTree declared tree).write = .ok (ofTree declared tree.settle) :=
  parse_of_outcome (toList_write_ofTree declared tree)
    (Stage.outcome_root (Stage.outcome_settle legible [] []))

theorem node_of_getElem?_layOut (declared : Bool) {tree : Tree} {id : Nat} {node : Node}
    (found : (tree.layOut false none 0)[id]? = some node) :
    id < (ofTree declared tree).size ∧ (ofTree declared tree).node id = node := by
  have bound := (List.getElem?_eq_some_iff.mp found).1
  rw [Tree.length_layOut] at bound
  rw [getElem?_ofTree declared tree bound, Option.some.injEq] at found
  exact ⟨(size_ofTree declared tree).symm ▸ bound, found⟩

theorem settled_of_not_holdsLayout {declared : Bool} {tree : Tree}
    (bare : ∀ id < (ofTree declared tree).size, ¬ ((ofTree declared tree).node id).HoldsLayout) :
    tree.Settled := by
  have among : LayoutAmong [] 0 (tree.layOut false none 0) := by
    refine layoutAmong_iff.mpr fun id node found holds => ?_
    obtain ⟨bound, rfl⟩ := node_of_getElem?_layOut declared found
    exact absurd holds (bare id bound)
  exact Tree.settled_iff_layoutAmong.mpr among

theorem exists_of_mem_elements (declared : Bool) {tree : Tree} {element : Element}
    (member : element ∈ tree.elements) :
    ∃ id < (ofTree declared tree).size, ((ofTree declared tree).node id).toElement = element := by
  rw [← map_toElement_layOut false none 0 tree] at member
  obtain ⟨node, listed, rfl⟩ := List.mem_map.mp member
  obtain ⟨id, found⟩ := List.mem_iff_getElem?.mp listed
  obtain ⟨bound, rfl⟩ := node_of_getElem?_layOut declared found
  exact ⟨id, bound, rfl⟩

theorem started_of_parse {text : String} {document : Document} (read : parse text = .ok document)
    {id : NodeId} (bound : id < document.size) :
    Started (document.node id).tag (document.node id).attributes := by
  have listed : document.node id ∈ document.nodes.toList := by
    rw [node, Array.getD_eq_getD_getElem?, Array.getElem?_eq_getElem bound]
    exact Array.getElem_mem_toList bound
  exact Tally.started_ofText (begun_ofText read ▸ List.mem_map_of_mem listed)

/-- What is written of a document that has been read can be read, and is read as that document. -/
theorem parse_write_of_parse {text : String} {document : Document} (read : parse text = .ok document)
    (names : ∀ id < document.size, (document.node id).PlainNames) :
    ∃ again, parse document.write = .ok again ∧
      ((∀ id < document.size, ∀ entry ∈ (document.node id).attributes, '>' ∉ entry.key.toList) →
        (∀ id ∈ (Tally.ofText text).opened, ¬ (document.node id).HoldsLayout) →
          again = document ∧ again.write = document.write) := by
  have started := @started_of_parse text document read
  have distinct := distinctKeys_of_parse read
  have layout := @mem_opened_of_holdsLayout text document read
  obtain ⟨declared, tree, rfl⟩ := exists_ofTree_of_parse read
  have readable : ∃ again, parse (ofTree declared tree).write = .ok again := by
    obtain ⟨element, children⟩ := tree
    have top : 0 < (ofTree declared (.node element children)).size := by
      rw [size_ofTree, Tree.size]
      exact Nat.succ_pos _
    obtain ⟨token, after, found, starts⟩ := Token.next?_write (names 0 top) (started top).head children
    exact parse_of_begun (toList_write_ofTree _ _) (Stage.outcome_ne_beforeRoot found starts)
  obtain ⟨again, parsed⟩ := readable
  refine ⟨again, parsed, fun brackets bare => ?_⟩
  have legible : ∀ element ∈ tree.elements, element.Legible := by
    intro element member
    obtain ⟨id, bound, rfl⟩ := exists_of_mem_elements declared member
    exact Element.legible_of_started (started bound) (names id bound) (brackets id bound) (distinct id)
  have settled : tree.Settled := settled_of_not_holdsLayout fun id bound holds =>
    bare id (layout bound holds) holds
  rw [parse_write_of_legible legible, settled.settle_eq, Except.ok.injEq] at parsed
  exact ⟨parsed.symm, parsed ▸ rfl⟩

theorem forall_ofTree (declared : Bool) {tree : Tree} (holds : Element → Prop)
    (each : ∀ element ∈ tree.elements, holds element) :
    ∀ id < (ofTree declared tree).size, holds ((ofTree declared tree).node id).toElement :=
  fun _ bound => each _ (toElement_mem_ofTree bound)

/-- A text that breaks off behind an attribute that is dropped, a quote and a reference. -/
theorem parse_write_of_parse_open : ∃ document again,
    parse "<a>b &lt;<c d=1 e='\"'> &amp;<f/>" = .ok document ∧ parse document.write = .ok again ∧
      again = document ∧ again.write = document.write := by
  have read : parse "<a>b &lt;<c d=1 e='\"'> &amp;<f/>" = .ok (ofTree false
      (.node { tag := "a", text := "b <" }
        [.node { tag := "c", attributes := [⟨"e", "\""⟩], text := " &" } [.node { tag := "f" } []]])) := by
    cbv
  have opened : (Tally.ofText "<a>b &lt;<c d=1 e='\"'> &amp;<f/>").opened = [1, 0] := by cbv
  obtain ⟨again, parsed, same⟩ := parse_write_of_parse read <|
    forall_ofTree false Element.PlainNames (by simp [Tree.elements, Tree.elementsAll, Element.PlainNames])
  refine ⟨_, again, read, parsed, same ?_ ?_⟩
  · exact forall_ofTree false (fun element => ∀ entry ∈ element.attributes, '>' ∉ entry.key.toList)
      (by simp [Tree.elements, Tree.elementsAll])
  · rw [opened]
    decide

/-- A bracket in a key ends the tag when it is read again, and blanks that were kept in an element that is
open are dropped once its end has been written. -/
theorem parse_write_changed :
    (∃ document again, parse "<a x=1\" y>z='3' w=2\"/>" = .ok document ∧
      (∀ id < document.size, (document.node id).PlainNames) ∧ parse document.write = .ok again ∧
        document.write = "<a y>z=\"3\" />" ∧ again.write = "<a>z=\"3\" /&gt;</a>") ∧
    (∃ document again, parse "<a> <b/>" = .ok document ∧
      (∀ id < document.size, (document.node id).PlainNames) ∧ parse document.write = .ok again ∧
        document.write = "<a> <b /></a>" ∧ again.write = "<a><b /></a>") := by
  constructor
  · refine ⟨ofTree false (.node { tag := "a", attributes := [⟨"y>z", "3"⟩] } []),
      ofTree false (.node { tag := "a", text := "z=\"3\" />" } []), by cbv, ?_, by cbv, by cbv, by cbv⟩
    exact forall_ofTree false Element.PlainNames
      (by simp [Tree.elements, Tree.elementsAll, Element.PlainNames])
  · refine ⟨ofTree false (.node { tag := "a", text := " " } [.node { tag := "b" } []]),
      ofTree false (.node { tag := "a" } [.node { tag := "b" } []]), by cbv, ?_, by cbv, by cbv, by cbv⟩
    exact forall_ofTree false Element.PlainNames
      (by simp [Tree.elements, Tree.elementsAll, Element.PlainNames])

end Document

end WordTemplate.Markup
