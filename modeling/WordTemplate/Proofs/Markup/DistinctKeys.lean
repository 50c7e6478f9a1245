import WordTemplate.Proofs.Markup.Reading

/-! Attributes that are given once. Reading drops repeated keys, so that all elements of a document that
has been read have distinct ones; changing attributes keeps them distinct. -/

namespace WordTemplate.Markup

def DistinctKeys (attributes : List Attribute) : Prop :=
  (attributes.map (·.key)).Nodup

instance (attributes : List Attribute) : Decidable (DistinctKeys attributes) :=
  inferInstanceAs (Decidable (List.Nodup _))

theorem distinctKeys_nil : DistinctKeys [] :=
  List.nodup_nil

namespace Token

theorem distinctKeys_readAttributes {seen : List String} {fuel : Nat} {source : List Char} :
    DistinctKeys (readAttributes seen fuel source) ∧
      ∀ entry ∈ readAttributes seen fuel source, entry.key ∉ seen := by
  induction fuel generalizing seen source with
  | zero => exact ⟨distinctKeys_nil, by simp [readAttributes]⟩
  | succ fuel ih =>
      have onward : ∀ {names : List String} {after : List Char}, seen ⊆ names →
          ∀ entry ∈ readAttributes names fuel after, entry.key ∉ seen :=
        fun known entry member met => ih.2 entry member (known met)
      have step := readsAttribute seen fuel source
      generalize readAttributes seen (fuel + 1) source = entries at step ⊢
      cases step with
      | stops => exact ⟨distinctKeys_nil, by simp⟩
      | skips known _ => exact ⟨ih.1, onward known⟩
      | reads fresh =>
          refine ⟨List.nodup_cons.mpr ⟨fun again => ?_, ih.1⟩,
            List.forall_mem_cons.mpr ⟨fresh, onward (List.subset_cons_self ..)⟩⟩
          obtain ⟨entry, member, same⟩ := List.mem_map.mp again
          exact ih.2 entry member (same ▸ List.mem_cons_self ..)

def Distinct : Token → Prop
  | opening _ attributes => DistinctKeys attributes
  | empty _ attributes => DistinctKeys attributes
  | _ => True

theorem distinct_ofStart (content : List Char) : (ofStart content).Distinct := by
  unfold ofStart
  split
  · exact distinctKeys_readAttributes.1
  · exact distinctKeys_readAttributes.1

theorem distinct_scan (source : List Char) : ∀ token ∈ (scan source).1, token.Distinct := by
  intro token member
  by_cases starts : token.start? = none
  · cases token with
    | opening | empty => simp [start?] at starts
    | closing | text | reference | declaration | ignored => trivial
  · obtain ⟨_, content, _, _, _, rfl⟩ := cutTag_of_mem_scan member starts
    exact distinct_ofStart content

end Token

def Tree.Distinct (tree : Tree) : Prop :=
  ∀ element ∈ tree.elements, DistinctKeys element.attributes

namespace Frame

structure Distinct (frame : Frame) : Prop where
  element : DistinctKeys frame.element.attributes
  children : ∀ child ∈ frame.children, child.Distinct

theorem distinct_start {tag : String} {attributes : List Attribute} (distinct : DistinctKeys attributes) :
    (start tag attributes).Distinct :=
  ⟨distinct, by simp [start]⟩

namespace Distinct

variable {frame : Frame} (distinct : frame.Distinct)
include distinct

theorem tree : frame.tree.Distinct := by
  intro element member
  rw [Frame.tree, Tree.elements, List.mem_cons, Tree.elementsAll_eq, List.mem_flatMap] at member
  rcases member with rfl | ⟨child, listed, below⟩
  · exact distinct.element
  · exact distinct.children child (List.mem_reverse.mp listed) element below

theorem close : frame.close.Distinct := by
  rw [Frame.close, dropLayout]
  split
  · exact Distinct.tree ⟨distinct.element, distinct.children⟩
  · exact distinct.tree

theorem addChild {child : Tree} (inner : child.Distinct) : (frame.addChild child).Distinct :=
  ⟨distinct.element, List.forall_mem_cons.mpr ⟨inner, distinct.children⟩⟩

theorem addText (content : List Char) : (frame.addText content).Distinct :=
  ⟨distinct.element, distinct.children⟩

end Distinct

theorem distinct_unwind {inner : Tree} {outer : List Frame} (distinct : inner.Distinct)
    (around : ∀ frame ∈ outer, frame.Distinct) : (unwind inner outer).Distinct := by
  induction outer generalizing inner with
  | nil => exact distinct
  | cons frame rest ih =>
      obtain ⟨first, others⟩ := List.forall_mem_cons.mp around
      exact ih (first.addChild distinct).tree others

end Frame

namespace Stage

def Distinct : Stage → Prop
  | beforeRoot => True
  | inside inner outer => inner.Distinct ∧ ∀ frame ∈ outer, frame.Distinct
  | afterRoot root _ => root.Distinct

variable {stage next : Stage} (distinct : stage.Distinct)
include distinct

theorem distinct_addText (content : List Char) : (stage.addText content).Distinct := by
  cases stage with
  | beforeRoot => exact distinct
  | inside inner outer => exact ⟨distinct.1.addText content, distinct.2⟩
  | afterRoot root stray => exact distinct

theorem distinct_closeElement? {tag : String} (closed : stage.closeElement? tag = some next) :
    next.Distinct := by
  cases closes_of_closeElement? closed with
  | root inner => exact distinct.1.close
  | child inner next others =>
      obtain ⟨first, rest⟩ := List.forall_mem_cons.mp distinct.2
      exact ⟨first.addChild distinct.1.close, rest⟩
  | stray root name rest => exact distinct

theorem distinct_step? {token : Token} (given : token.Distinct) (step : stage.step? token = some next) :
    next.Distinct := by
  cases token with
  | opening tag attributes =>
      cases step
      have fresh : (Frame.start tag attributes).Distinct := Frame.distinct_start given
      cases stage with
      | beforeRoot => exact ⟨fresh, by simp⟩
      | inside inner outer => exact ⟨fresh, List.forall_mem_cons.mpr distinct⟩
      | afterRoot root stray => exact distinct
  | empty tag attributes =>
      cases step
      have fresh : (Frame.start tag attributes).Distinct := Frame.distinct_start given
      cases stage with
      | beforeRoot => exact fresh.tree
      | inside inner outer => exact ⟨distinct.1.addChild fresh.tree, distinct.2⟩
      | afterRoot root stray => exact distinct
  | closing tag => exact distinct_closeElement? distinct step
  | text content =>
      cases step
      exact distinct_addText distinct content
  | reference name =>
      cases step
      exact distinct_addText distinct _
  | declaration =>
      cases step
      exact distinct
  | ignored =>
      cases step
      exact distinct

theorem distinct_run {tokens : List Token} (given : ∀ token ∈ tokens, token.Distinct) :
    (stage.run tokens).1.Distinct := by
  induction tokens generalizing stage with
  | nil => exact distinct
  | cons token rest ih =>
      obtain ⟨first, others⟩ := List.forall_mem_cons.mp given
      rw [run]
      split
      · rename_i next step
        exact ih (distinct_step? distinct first step) others
      · exact distinct

theorem distinct_root? {root : Tree} (found : stage.root? = some root) : root.Distinct := by
  cases stage with
  | beforeRoot => simp [root?] at found
  | inside inner outer =>
      cases found
      exact Frame.distinct_unwind distinct.1.tree distinct.2
  | afterRoot root stray =>
      cases found
      exact distinct

end Stage

theorem Source.distinct_read {text : List Char} {source : Source} (read : Source.read text = .ok source) :
    source.root.Distinct := by
  unfold Source.read at read
  have start : Stage.Distinct .beforeRoot := trivial
  simp only at read
  split at read
  · rename_i root found
    cases read
    exact Stage.distinct_root? (Stage.distinct_run start (Token.distinct_scan _)) found
  · simp at read

theorem Document.distinctKeys_ofTree (declared : Bool) {tree : Tree} (distinct : tree.Distinct)
    (id : NodeId) : DistinctKeys ((ofTree declared tree).node id).attributes := by
  rcases toElement_ofTree declared tree id with listed | absent
  · exact distinct _ listed
  · rw [absent]
    exact distinctKeys_nil

theorem Document.distinctKeys_of_parse {text : String} {document : Document}
    (read : parse text = .ok document) (id : NodeId) :
    DistinctKeys (document.node id).attributes := by
  simp only [parse, bind, Except.bind] at read
  split at read
  · simp at read
  · rename_i source found
    cases read
    exact distinctKeys_ofTree source.declared (Source.distinct_read found) id

theorem Document.distinctKeys_of_parseFragment {content : String} {fragment : Document}
    (read : parseFragment content = .ok fragment) (id : NodeId) :
    DistinctKeys (fragment.node id).attributes := by
  simp only [parseFragment, bind, Except.bind] at read
  split at read
  · simp at read
  · rename_i source found
    cases read
    exact distinctKeys_ofTree false (Source.distinct_read found) id

namespace Element

variable {key other value : String} {attributes : List Attribute}

theorem mem_keys_set :
    other ∈ (setAttribute.set key value attributes).map (·.key) ↔
      other = key ∨ other ∈ attributes.map (·.key) := by
  induction attributes with
  | nil => simp [setAttribute.set]
  | cons entry rest ih =>
      rw [setAttribute.set]
      split
      · rename_i same
        simp [same]
      · rw [List.map_cons, List.mem_cons, ih, List.map_cons, List.mem_cons]
        tauto

theorem mem_set {entry : Attribute} (member : entry ∈ setAttribute.set key value attributes) :
    entry = ⟨key, value⟩ ∨ entry ∈ attributes := by
  induction attributes with
  | nil => exact .inl (by simpa [setAttribute.set] using member)
  | cons first rest ih =>
      rw [setAttribute.set] at member
      split at member
      · exact (List.mem_cons.mp member).imp_right (List.mem_cons_of_mem _)
      · rcases List.mem_cons.mp member with rfl | later
        · exact .inr (List.mem_cons_self ..)
        · exact (ih later).imp_right (List.mem_cons_of_mem _)

theorem distinctKeys_set (distinct : DistinctKeys attributes) :
    DistinctKeys (setAttribute.set key value attributes) := by
  induction attributes with
  | nil => exact by simp [setAttribute.set, DistinctKeys]
  | cons entry rest ih =>
      obtain ⟨fresh, inner⟩ := List.nodup_cons.mp distinct
      rw [setAttribute.set]
      split
      · rename_i same
        exact List.nodup_cons.mpr ⟨same ▸ fresh, inner⟩
      · rename_i apart
        refine List.nodup_cons.mpr ⟨?_, ih inner⟩
        rw [mem_keys_set, not_or]
        exact ⟨apart, fresh⟩

theorem set_set : setAttribute.set key value (setAttribute.set key value attributes) =
    setAttribute.set key value attributes := by
  induction attributes with
  | nil => simp [setAttribute.set]
  | cons entry rest ih =>
      rw [setAttribute.set]
      split
      · rw [setAttribute.set, if_pos rfl]
      · rename_i apart
        rw [setAttribute.set, if_neg apart, ih]

def except (key : String) (attributes : List Attribute) : List Attribute :=
  attributes.filter fun entry => entry.key ≠ key

theorem except_set : except key (setAttribute.set key value attributes) = except key attributes := by
  induction attributes with
  | nil => simp [setAttribute.set, except]
  | cons entry rest ih =>
      rw [setAttribute.set]
      split
      · rename_i same
        simp [except, same]
      · rename_i apart
        rw [except, except, List.filter_cons_of_pos (by simpa using apart),
          List.filter_cons_of_pos (by simpa using apart)]
        exact congrArg _ ih

theorem except_set_of_ne (apart : other ≠ key) :
    except other (setAttribute.set key value attributes) =
      setAttribute.set key value (except other attributes) := by
  induction attributes with
  | nil => simp [setAttribute.set, except, Ne.symm apart]
  | cons entry rest ih =>
      by_cases same : entry.key = key
      · have kept : entry.key ≠ other := fun equal => apart (equal.symm.trans same)
        rw [setAttribute.set, if_pos same, except, except,
          List.filter_cons_of_pos (by simpa using Ne.symm apart),
          List.filter_cons_of_pos (by simpa using kept), setAttribute.set, if_pos same]
      · rw [setAttribute.set, if_neg same]
        by_cases dropped : entry.key = other
        · rw [except, except, List.filter_cons_of_neg (by simpa using dropped),
            List.filter_cons_of_neg (by simpa using dropped)]
          exact ih
        · rw [except, except, List.filter_cons_of_pos (by simpa using dropped),
            List.filter_cons_of_pos (by simpa using dropped), setAttribute.set, if_neg same]
          exact congrArg _ ih

theorem eraseP_of_distinctKeys (distinct : DistinctKeys attributes) :
    (attributes.eraseP fun entry => entry.key = key) = except key attributes := by
  induction attributes with
  | nil => rfl
  | cons entry rest ih =>
      obtain ⟨fresh, inner⟩ := List.nodup_cons.mp distinct
      by_cases same : entry.key = key
      · have others : except key rest = rest := by
          rw [except, List.filter_eq_self]
          intro other member
          simp only [ne_eq, decide_eq_true_eq]
          intro again
          exact fresh (List.mem_map.mpr ⟨other, member, again.trans same.symm⟩)
        rw [List.eraseP_cons_of_pos (by simpa using same), except,
          List.filter_cons_of_neg (by simpa using same)]
        exact others.symm
      · rw [List.eraseP_cons_of_neg (by simpa using same), ih inner, except, except,
          List.filter_cons_of_pos (by simpa using same)]

theorem distinctKeys_except (distinct : DistinctKeys attributes) :
    DistinctKeys (except key attributes) :=
  List.Nodup.sublist (List.Sublist.map _ List.filter_sublist) distinct

theorem except_except : except key (except key attributes) = except key attributes := by
  rw [except, except, List.filter_filter]
  congr 1
  funext entry
  exact Bool.and_self _

end Element

end WordTemplate.Markup
