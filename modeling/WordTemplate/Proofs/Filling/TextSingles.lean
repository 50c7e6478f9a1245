import WordTemplate.Proofs.Filling.Idle
import WordTemplate.Proofs.Filling.TriggerPasses
import WordTemplate.Proofs.Wordml.Merging

/-! Filling single placeholders when no parameter is an image. Texts are filled in their places, in
document order, and the triggers of each are noted as they stood before. -/

namespace WordTemplate

open Markup

namespace Markup.Document

section Walk

variable {σ : Type} {visit : Visitor σ} {base : Document}

def visited (visit : Visitor σ) (state : Document × σ) (id : NodeId) : Document × σ :=
  ((visit state.1 state.2 id).1, (visit state.1 state.2 id).2.1)

def reachedTo (document : Document) : Nat → NodeId → List NodeId
  | 0, _ => []
  | depth + 1, id => if document.isLive id then id :: document.descendantsTo depth id else []

theorem descendantsTo_eq_flatMap (document : Document) (depth : Nat) (id : NodeId) :
    document.descendantsTo depth id = (document.children id).flatMap (document.reachedTo depth) := by
  cases depth with
  | zero => simp [descendantsTo, reachedTo]
  | succ depth => rfl

theorem isLive_of_mem_reachedTo {document : Document} {depth : Nat} {start id : NodeId}
    (member : id ∈ document.reachedTo depth start) : document.isLive id = true := by
  cases depth with
  | zero => simp [reachedTo] at member
  | succ depth =>
      rw [reachedTo] at member
      split at member
      · rename_i live
        rcases List.mem_cons.mp member with rfl | below
        · exact live
        · exact isLive_of_mem_descendantsTo below
      · simp at member

variable (keeps : ∀ document own id, SameLinks base document → base.isLive id = true →
  SameLinks base (visit document own id).1 ∧ (visit document own id).2.2 = .descend)
include keeps

theorem sameLinks_visited {ids : List NodeId} (live : ∀ id ∈ ids, base.isLive id = true)
    {state : Document × σ} (same : SameLinks base state.1) :
    SameLinks base (ids.foldl (visited visit) state).1 := by
  induction ids generalizing state with
  | nil => exact same
  | cons id rest ih =>
      obtain ⟨first, others⟩ := List.forall_mem_cons.mp live
      exact ih others (keeps state.1 state.2 id same first).1

theorem foldl_walkNode {depth : Nat}
    (each : ∀ id state, SameLinks base state.1 →
      walkNode visit depth state id = (base.reachedTo depth id).foldl (visited visit) state)
    (children : List NodeId) {state : Document × σ} (same : SameLinks base state.1) :
    children.foldl (walkNode visit depth) state =
      (children.flatMap (base.reachedTo depth)).foldl (visited visit) state := by
  induction children generalizing state with
  | nil => rfl
  | cons child rest ih =>
      rw [List.foldl_cons, List.flatMap_cons, List.foldl_append, each child state same]
      exact ih (sameLinks_visited keeps (fun _ => isLive_of_mem_reachedTo) same)

theorem walkNode_eq_foldl (depth : Nat) (id : NodeId) (state : Document × σ)
    (same : SameLinks base state.1) :
    walkNode visit depth state id = (base.reachedTo depth id).foldl (visited visit) state := by
  induction depth generalizing id state with
  | zero => rfl
  | succ depth ih =>
      rw [walkNode, reachedTo, same.isLive]
      split
      · rename_i live
        obtain ⟨next, descends⟩ := keeps state.1 state.2 id same live
        rw [List.foldl_cons, descendantsTo_eq_flatMap, ← foldl_walkNode keeps ih _ next, ← next.children]
        simp only [descends, next.isLive, live]
        rfl
      · rfl

theorem walk_eq_foldl (start : NodeId) (own : σ) :
    base.walk start visit own = (base.descendants start).foldl (visited visit) (base, own) := by
  rw [walk, descendants, descendantsTo_eq_flatMap]
  exact foldl_walkNode keeps (walkNode_eq_foldl keeps _) _ (.refl base)

end Walk

end Markup.Document

namespace Filling

def Imageless (params : Params) : Prop :=
  ∀ placeholder insert value, insert? params placeholder = some (insert, value) →
    insert.isMarkup = false

variable {params : Params} (imageless : Imageless params)
include imageless

theorem isMarkup_insertOf (piece : Piece) : (insertOf params piece).isMarkup = false := by
  cases piece with
  | literal text => rfl
  | marker placeholder =>
      rw [insertOf]
      split
      · rename_i insert value found
        exact imageless placeholder insert value found
      · rfl

theorem contents_eq_fillValue (content : String) :
    String.join (((Piece.ofText content).map (insertOf params)).map Insert.content) =
      fillValue params content := by
  rw [join_contents, fillValue]
  refine Placeholder.render_congr fun placeholder _ => ?_
  rw [insertOf]
  cases found : insert? params placeholder with
  | none => rfl
  | some given =>
      obtain ⟨insert, value⟩ := given
      cases insert with
      | text content => rfl
      | markup content => exact absurd (imageless placeholder _ value found) (by simp [Insert.isMarkup])

theorem fillText_eq (document : Document) (id : NodeId) :
    fillText document params id =
      if (Placeholder.scan (document.text id)).any fun placeholder => (insert? params placeholder).isSome then
        Wordml.preserveSpace (document.setText id (fillValue params (document.text id))) id
      else document := by
  have noMarkup : ((Piece.ofText (document.text id)).map (insertOf params)).any Insert.isMarkup = false := by
    rw [List.any_eq_false]
    intro insert member
    obtain ⟨piece, -, rfl⟩ := List.mem_map.mp member
    rw [isMarkup_insertOf imageless]
    decide
  rw [fillText]
  simp only [noMarkup, contents_eq_fillValue imageless]
  rfl

variable {document : Document}

theorem rewritten_fillText (id : NodeId) :
    Document.Rewritten document (fillText document params id) := by
  rw [fillText_eq imageless]
  split
  · exact (rewritten_setText document id _).trans (rewritten_preserveSpace _ id)
  · exact .refl document

theorem text_fillText {id : NodeId} (live : document.isLive id = true) (other : NodeId) :
    (fillText document params id).text other =
      if other = id then fillValue params (document.text other) else document.text other := by
  rw [fillText_eq imageless]
  split
  · rw [Wordml.text_preserveSpace, Document.text, Document.setText, Document.node_modify]
    by_cases same : other = id
    · subst same
      rw [if_pos ⟨rfl, Document.lt_size_of_isLive live⟩, if_pos rfl]
    · rw [if_neg fun both => same both.1, if_neg same]
      rfl
  · rename_i none
    split
    · rename_i same
      subst same
      refine (fillValue_of_none fun placeholder member => ?_).symm
      by_contra some
      exact none (List.any_eq_true.mpr ⟨placeholder, member, Option.isSome_iff_ne_none.mpr some⟩)
    · rfl

/-- What the texts of a document are, and which triggers have been noted, when some nodes have been
visited. -/
structure Put (params : Params) (first : Document) (done : List NodeId)
    (state : Document × List Firing) : Prop where
  rewritten : Document.Rewritten first state.1
  text : ∀ id, state.1.text id =
    if id ∈ done ∧ first.tag id = Wordml.text then fillValue params (first.text id)
    else first.text id
  firings : state.2 = done.flatMap fun id =>
    if first.tag id = Wordml.text then textFirings first params id else []

omit imageless in
theorem text_fillAttributes (id other : NodeId) :
    (fillAttributes document params id).text other = document.text other := by
  rw [fillAttributes, Document.setAttributes, Document.text, Document.node_modify]
  split <;> rfl

theorem Put.step {first : Document} {done : List NodeId} {state : Document × List Firing}
    (put : Put params first done state) {id : NodeId} (fresh : id ∉ done)
    (live : first.isLive id = true) :
    Put params first (done ++ [id]) (Document.visited (fillNode params) state id) := by
  obtain ⟨middle, firings⟩ := state
  let dressed := fillAttributes middle params id
  have rewritten : Document.Rewritten first dressed :=
    put.rewritten.trans (rewritten_fillAttributes middle params id)
  have text (other : NodeId) : dressed.text other = middle.text other := text_fillAttributes id other
  have here : dressed.text id = first.text id := by
    rw [text, put.text, if_neg fun both => fresh both.1]
  have noted : textFirings dressed params id = textFirings first params id := by
    rw [textFirings, textFirings, here, rewritten.links.parent?]
  rw [Document.visited, fillNode]
  by_cases isText : first.tag id = Wordml.text
  · have now : dressed.tag id = Wordml.text := (rewritten.removes.tag id).trans isText
    simp only [dressed] at now noted
    simp only [now, if_true, noted]
    refine ⟨rewritten.trans (rewritten_fillText imageless id), fun other => ?_, ?_⟩
    · rw [text_fillText imageless ((rewritten.links.isLive id).trans live)]
      by_cases same : other = id
      · subst same
        rw [if_pos rfl, if_pos ⟨by simp, isText⟩]
        exact congrArg _ here
      · rw [if_neg same]
        refine (text other).trans ((put.text other).trans ?_)
        simp [same]
    · rw [List.flatMap_append, ← put.firings]
      simp [isText]
  · have now : dressed.tag id ≠ Wordml.text := fun same =>
      isText ((rewritten.removes.tag id).symm.trans same)
    simp only [dressed] at now
    simp only [now, if_false]
    refine ⟨rewritten, fun other => (text other).trans ((put.text other).trans ?_), ?_⟩
    · by_cases same : other = id
      · subst same
        simp [isText]
      · simp [same]
    · rw [List.flatMap_append, ← put.firings]
      simp [isText]

theorem Put.foldl {first : Document} {done ids : List NodeId} {state : Document × List Firing}
    (put : Put params first done state) (nodup : (done ++ ids).Nodup)
    (live : ∀ id ∈ ids, first.isLive id = true) :
    Put params first (done ++ ids) (ids.foldl (Document.visited (fillNode params)) state) := by
  induction ids generalizing done state with
  | nil => simpa using put
  | cons id rest ih =>
      obtain ⟨here, others⟩ := List.forall_mem_cons.mp live
      rw [List.append_cons] at nodup ⊢
      have fresh : id ∉ done := by
        have front := (List.nodup_append.mp nodup).1
        rw [List.nodup_append] at front
        exact fun member => front.2.2 id member id (by simp) rfl
      exact ih (put.step imageless fresh here) nodup others

theorem rewritten_fillNode (firings : List Firing) (id : NodeId) :
    Document.Rewritten document (fillNode params document firings id).1 := by
  rw [fillNode]
  split
  · exact (rewritten_fillAttributes document params id).trans (rewritten_fillText imageless id)
  · exact rewritten_fillAttributes document params id

theorem put_singles (nodup : (document.descendants document.root).Nodup) :
    Put params document (document.descendants document.root)
      (Pass.singles.start document params) := by
  let base := fillAttributes document params document.root
  have rewritten : Document.Rewritten document base := rewritten_fillAttributes document params _
  have begin : Put params document [] (base, []) :=
    ⟨rewritten, fun id => by simpa using text_fillAttributes document.root id, rfl⟩
  have below : base.descendants document.root = document.descendants document.root := by
    rw [rewritten.removes.descendants (by simp)]
    simp
  have keeps (middle : Document) (firings : List Firing) (id : NodeId)
      (same : Document.SameLinks base middle) (_ : base.isLive id = true) :
      Document.SameLinks base (fillNode params middle firings id).1 ∧
        (fillNode params middle firings id).2.2 = .descend := by
    refine ⟨same.trans (rewritten_fillNode imageless firings id).links, ?_⟩
    rw [fillNode]
    split <;> rfl
  rw [Pass.start, Document.walk_eq_foldl keeps, below]
  exact begin.foldl imageless nodup fun _ => Document.isLive_of_mem_descendantsTo

end Filling

end WordTemplate
