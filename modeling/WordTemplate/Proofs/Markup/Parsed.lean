import WordTemplate.Proofs.Markup.DistinctKeys
import WordTemplate.Proofs.Markup.Independence
import WordTemplate.Proofs.Markup.Tally

/-! What is known of a document that has been read, whether its text is well-formed or not. -/

namespace WordTemplate.Markup

namespace Source

/-- A text without the mark for the order of bytes. -/
def body (text : List Char) : List Char :=
  if text.head? = some '\uFEFF' then text.tail else text

theorem body_append {text : List Char} (some : text ≠ []) (rest : List Char) :
    body (text ++ rest) = body text ++ rest := by
  obtain ⟨c, others, rfl⟩ := List.exists_cons_of_ne_nil some
  by_cases mark : c = '\uFEFF' <;> simp [body, mark]

/-- The tokens that are taken from a text, which are those before the first that does not fit. -/
def tokens (text : String) : List Token :=
  Stage.beforeRoot.taken (Token.scan (body text.toList)).1

end Source

/-- The elements that a text begins, leaves open and ends. -/
def Tally.ofText (text : String) : Tally :=
  ({} : Tally).count (Source.tokens text)

theorem Tally.proper_ofText (text : String) : (ofText text).Proper :=
  proper_count proper_empty _

theorem Stage.tallied_outcome (text : String) :
    (beforeRoot.outcome (Source.body text.toList)).1.Tallied (Tally.ofText text) :=
  have start : beforeRoot.Tallied {} := show Frame.Tallied [] {} from ⟨rfl, rfl, by simp⟩
  tallied_run start _

namespace Tree

mutual

theorem parent_lt_of_mem_links {parent : Option NodeId} {first : NodeId} {tree : Tree} :
    ∀ link ∈ (tree.outline first).links parent,
      (link.parent = parent ∧ first ≤ link.id) ∨ ∃ above < link.id, link.parent = some above := by
  cases tree with
  | node element children =>
      rw [outline, Outline.links, List.forall_mem_cons]
      refine ⟨.inl ⟨rfl, Nat.le_refl _⟩, fun link member => .inr ?_⟩
      rcases parent_lt_of_mem_linksAll link member with ⟨same, behind⟩ | earlier
      · exact ⟨first, behind, same⟩
      · exact earlier

theorem parent_lt_of_mem_linksAll {parent : Option NodeId} {first : NodeId} {trees : List Tree} :
    ∀ link ∈ Outline.linksAll parent (outlines first trees),
      (link.parent = parent ∧ first ≤ link.id) ∨ ∃ above < link.id, link.parent = some above := by
  cases trees with
  | nil => simp [outlines, Outline.linksAll]
  | cons tree rest =>
      rw [outlines, Outline.linksAll, List.forall_mem_append]
      refine ⟨parent_lt_of_mem_links, fun link member => ?_⟩
      rcases parent_lt_of_mem_linksAll link member with ⟨same, behind⟩ | earlier
      · exact .inl ⟨same, Nat.le_trans (Nat.le_add_right ..) behind⟩
      · exact .inr earlier

end

end Tree

namespace Document

theorem isLive_ofTree (declared : Bool) (tree : Tree) {id : Nat} (bound : id < tree.size) :
    (ofTree declared tree).isLive id = true := by
  refine (holds_ofTree declared tree).isLive_of_mem ?_
  rw [Outline.idsAll, Outline.idsAll, List.append_nil, Tree.ids_outline]
  exact List.mem_range'_1.mpr ⟨Nat.zero_le _, by omega⟩

theorem parent?_ofTree (declared : Bool) (tree : Tree) {id : Nat} (bound : id < tree.size)
    (below : id ≠ 0) : ∃ above < id, (ofTree declared tree).parent? id = some above := by
  have holds := holds_ofTree declared tree
  have listed : id ∈ (tree.outline 0).ids := by
    rw [Tree.ids_outline]
    exact List.mem_range'_1.mpr ⟨Nat.zero_le _, by omega⟩
  rw [← Outline.map_id_links none] at listed
  obtain ⟨link, member, rfl⟩ := List.mem_map.mp listed
  have has := holds.has link (by simpa [Outline.linksAll] using member)
  rw [has.parent]
  cases tree with
  | node element children =>
      rw [Tree.outline, Outline.links, List.mem_cons] at member
      rcases member with rfl | inner
      · exact absurd rfl below
      · rcases Tree.parent_lt_of_mem_linksAll link inner with ⟨same, behind⟩ | earlier
        · exact ⟨0, behind, same⟩
        · exact earlier

theorem descendants_ofTree (declared : Bool) (tree : Tree) :
    (ofTree declared tree).descendants 0 = List.range' 1 (tree.size - 1) := by
  have holds : (ofTree declared tree).Holds ((Context.top [] []).fill [tree.outline 0]) :=
    holds_ofTree declared tree
  have below := holds.descendants
  rw [Tree.id_outline] at below
  rw [below]
  cases tree with
  | node element children =>
      rw [Tree.outline, Outline.children, Tree.idsAll_outlines, Tree.size]
      rfl

theorem parse_eq_ok_iff {text : String} {document : Document} : parse text = .ok document ↔
    ∃ root, (Stage.beforeRoot.outcome (Source.body text.toList)).1.root? = some root ∧
      document = ofTree ((Source.tokens text).contains .declaration) root := by
  constructor
  · intro read
    simp only [parse, bind, Except.bind] at read
    split at read
    · simp at read
    · rename_i source taken
      cases read
      unfold Source.read at taken
      simp only at taken
      split at taken
      · rename_i root found
        cases taken
        exact ⟨root, found, rfl⟩
      · simp at taken
  · rintro ⟨root, found, rfl⟩
    have taken : Source.read text.toList =
        .ok ⟨(Source.tokens text).contains .declaration, root⟩ := by
      rw [Stage.outcome, Source.body] at found
      simp only [Source.read, found]
      rfl
    rw [parse, taken]
    rfl

theorem getElem?_ofTree (declared : Bool) (tree : Tree) {id : Nat} (bound : id < tree.size) :
    (tree.layOut false none 0)[id]? = some ((ofTree declared tree).node id) := by
  rw [← Tree.length_layOut false none 0] at bound
  rw [node, ofTree, Array.getD_eq_getD_getElem?, List.getElem?_toArray, List.getElem?_eq_getElem bound]
  rfl

theorem parse_append {text : String} {document : Document} (read : parse text = .ok document)
    (ended : (Tally.ofText text).opened = []) (rest : String) : parse (text ++ rest) =
      .ok { document with declared := (Source.tokens (text ++ rest)).contains .declaration } := by
  obtain ⟨root, found, rfl⟩ := parse_eq_ok_iff.mp read
  obtain ⟨stray, done⟩ := Stage.afterRoot_of_opened (Stage.tallied_outcome text) found ended
  have some : text.toList ≠ [] := by
    intro none
    have nothing := Stage.outcome_stopped .beforeRoot [] (by simp [Token.next?])
    have body : Source.body text.toList = [] := by rw [none]; rfl
    rw [body, nothing] at done
    cases done
  obtain ⟨others, longer⟩ := Stage.outcome_behind_root done rest.toList
  rw [done] at found
  cases found
  refine parse_eq_ok_iff.mpr ⟨root, ?_, rfl⟩
  rw [String.toList_append, Source.body_append some, longer]
  rfl

/-- What a document is like that has been read from a text. -/
structure Parsed (text : String) (document : Document) : Prop where
  root : document.root = 0 ∧ 0 < document.size ∧ document.parent? 0 = none
  live : ∀ id < document.size, document.isLive id = true ∧ (document.node id).isNew = false
  linked : ∀ id < document.size, id ≠ 0 → ∃ above < id,
    document.parent? id = some above ∧ (document.children above).count id = 1
  order : document.descendants document.root = List.range' 1 (document.size - 1)
  keys : ∀ id, DistinctKeys (document.node id).attributes
  /-- The slots are the elements that the text begins, in its order. -/
  begun : document.nodes.toList.map (fun node => node.toElement.head) = (Tally.ofText text).begun
  /-- Where the end of an element was met, its text beside children is not layout. -/
  ended : ∀ id ∈ (Tally.ofText text).ended, id < document.size ∧
    (document.children id ≠ [] →
      document.text id = "" ∨ Text.isAllBlank (document.text id).toList = false)
  /-- What follows the end of the root tells at most whether there is a declaration. -/
  behind : (Tally.ofText text).opened = [] → ∀ rest, parse (text ++ rest) =
    .ok { document with declared := (Source.tokens (text ++ rest)).contains .declaration }

/-- Only elements that the text leaves open hold layout. -/
theorem mem_opened_of_holdsLayout {text : String} {document : Document}
    (read : parse text = .ok document) {id : NodeId} (bound : id < document.size)
    (holds : (document.node id).HoldsLayout) : id ∈ (Tally.ofText text).opened := by
  obtain ⟨root, found, rfl⟩ := parse_eq_ok_iff.mp read
  rw [size_ofTree] at bound
  have among := Stage.layoutAmong_root? (Stage.tallied_outcome text) found
  have slot := layoutAmong_iff.mp among id _ (getElem?_ofTree _ root bound) holds
  rwa [Nat.zero_add] at slot

theorem begun_ofText {text : String} {document : Document} (read : parse text = .ok document) :
    document.nodes.toList.map (fun node => node.toElement.head) = (Tally.ofText text).begun := by
  obtain ⟨root, found, rfl⟩ := parse_eq_ok_iff.mp read
  rw [← Stage.head_root? (Stage.tallied_outcome text) found, ← map_toElement_layOut false none 0 root,
    List.map_map]
  rfl

theorem length_begun_ofText {text : String} {document : Document} (read : parse text = .ok document) :
    (Tally.ofText text).begun.length = document.size := by
  rw [← begun_ofText read, List.length_map, Array.length_toList, size]

theorem parsed_of_parse {text : String} {document : Document} (read : parse text = .ok document) :
    document.Parsed text := by
  have ended : ∀ id ∈ (Tally.ofText text).ended, id < document.size ∧
      (document.children id ≠ [] →
        document.text id = "" ∨ Text.isAllBlank (document.text id).toList = false) := by
    intro id member
    have proper := Tally.proper_ofText text
    have bound : id < document.size :=
      length_begun_ofText read ▸ proper.begun id (List.mem_append_right _ member)
    refine ⟨bound, fun inner => ?_⟩
    by_contra layout
    rw [not_or, Bool.not_eq_false] at layout
    exact proper.not_mem_opened member (mem_opened_of_holdsLayout read bound ⟨inner, layout⟩)
  obtain ⟨declared, tree, rfl⟩ := exists_ofTree_of_parse read
  have size := size_ofTree declared tree
  have wellFormed := (sound_ofTree declared tree).wellFormed
  refine ⟨⟨rfl, ?_, ?_⟩, ?_, ?_, ?_, distinctKeys_of_parse read, begun_ofText read, ended,
    parse_append read⟩
  · cases tree
    rw [size, Tree.size]
    exact Nat.succ_pos _
  · cases tree
    rfl
  · intro id bound
    rw [size] at bound
    refine ⟨isLive_ofTree declared tree bound, ?_⟩
    exact Tree.isNew_of_mem_layOut _ (List.mem_of_getElem? (getElem?_ofTree declared tree bound))
  · intro id bound below
    rw [size] at bound
    obtain ⟨above, earlier, parent⟩ := parent?_ofTree declared tree bound below
    have lists := wellFormed.lists (isLive_ofTree declared tree bound) parent
    exact ⟨above, earlier, parent, List.count_eq_one_of_mem (wellFormed.nodup above) lists⟩
  · rw [size]
    exact descendants_ofTree declared tree

/-- A text that breaks off. Blanks beside children are kept in the elements that are open, not in the one
that has ended. -/
theorem parsed_of_parse_open : ∃ document, parse "<a> <b> <c/></b> <d> <e>x" = .ok document ∧
    document.Parsed "<a> <b> <c/></b> <d> <e>x" ∧
    (Tally.ofText "<a> <b> <c/></b> <d> <e>x").opened = [4, 3, 0] ∧
    (Tally.ofText "<a> <b> <c/></b> <d> <e>x").ended = [1] := by
  have read : parse "<a> <b> <c/></b> <d> <e>x" = .ok (ofTree false
      (.node { tag := "a", text := "  " } [.node { tag := "b" } [.node { tag := "c" } []],
        .node { tag := "d", text := " " } [.node { tag := "e", text := "x" } []]])) := by cbv
  exact ⟨_, read, parsed_of_parse read, by cbv, by cbv⟩

end Document

end WordTemplate.Markup
