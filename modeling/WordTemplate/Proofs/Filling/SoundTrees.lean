import WordTemplate.Proofs.Filling.FreeRuns

/-! Filling a document that has been read. It comes to an end, and the live slots are one tree below the
root again, without marks of lists. -/

namespace WordTemplate

open Markup
open Relation (TransGen)

namespace Wordml

/-- A document that has been read stands upright if its root is no element that is taken out and its texts
stand in runs. -/
theorem upright_of_parse {source : String} {document : Document}
    (read : Document.parse source = .ok document) (apart : document.isAny removable document.root = false)
    (texts : ∀ id, document.isLive id = true → document.tag id = text →
      (document.parent? id).map document.tag = some run) : Upright [] document := by
  have sound := (topped_of_parse read).sound
  refine ⟨sound, ?_, Document.distinctKeys_of_parse read, apart, fun id listed isText => ?_⟩
  · obtain ⟨declared, tree, rfl⟩ := Document.exists_ofTree_of_parse read
    exact ⟨tree.outline 0, Tree.id_outline 0 tree, Document.holds_ofTree declared tree⟩
  · have above : document.parent? id = some document.root := sound.wellFormed.above listed
    have inRun := texts id (sound.wellFormed.child_live listed) isText
    rw [above, Option.map_some, Option.some_inj] at inRun
    rw [Document.isAny, inRun] at apart
    exact absurd apart (by decide)

theorem Upright.isLive_iff {document : Document} (upright : Upright [] document) (id : NodeId) :
    document.isLive id = true ↔ id = document.root ∨ TransGen document.Lists document.root id := by
  obtain ⟨tree, top, holds⟩ := upright.stands
  have inside : document.Holds ((Context.top [] []).fill [tree]) := holds
  have below : ∀ other, other ∈ Outline.idsAll tree.children ↔
      document.isLive other = true ∧ TransGen document.Lists document.root other := by
    rw [← top, ← inside.descendants]
    exact (upright.sound.descendants tree.id).2
  constructor
  · intro live
    have member := holds.mem_of_isLive id live
    rw [List.nil_append, Outline.idsAll, Outline.idsAll, List.append_nil, ← Outline.node_eta tree,
      Outline.ids, List.mem_cons, top] at member
    exact member.imp_right fun inner => ((below id).mp inner).2
  · rintro (rfl | under)
    · exact upright.live
    · obtain ⟨_, _, lists⟩ := TransGen.tail'_iff.mp under
      exact upright.sound.wellFormed.child_live lists

end Wordml

namespace Filling

/-- No live slot carries a mark when the marks have been taken away. -/
theorem attribute?_stripMarks {document : Document} (upright : Wordml.Upright [] document) {id : NodeId}
    (live : (stripMarks document).isLive id = true) :
    (stripMarks document).attribute? id listKey = none := by
  have links : Document.SameLinks document (stripMarks document) :=
    (Document.rewritten_removeAttributeDeep document document.root listKey).links
  have before : document.isLive id = true := (links.isLive id).symm.trans live
  have inside : id = document.root ∨ id ∈ document.descendants document.root :=
    ((upright.isLive_iff id).mp before).imp_right fun under =>
      ((upright.sound.descendants document.root).2 id).mpr ⟨before, under⟩
  have kept := attributes_stripMarks upright.keys inside
  have none : (unmarked document id).find? (fun entry => entry.key = listKey) = none := by
    rw [List.find?_eq_none]
    intro entry member
    simpa using (List.mem_filter.mp member).2
  change (((stripMarks document).node id).attributes.find? fun entry => entry.key = listKey).map _ = _
  rw [kept, none, Option.map_none]

/-- Filling comes to an end by itself on every document that has been read whose root is no element that
is taken out and whose texts stand in runs, whatever becomes of the images among the parameters. Then the
root is live, the links agree with each other without a cycle, the live slots are the root and what is below
it, and none of them carries a mark of a list. -/
theorem fill_sound {source : String} {document : Document} (parsed : Document.parse source = .ok document)
    (apart : document.isAny Wordml.removable document.root = false)
    (texts : ∀ id, document.isLive id = true → document.tag id = Wordml.text →
      (document.parent? id).map document.tag = some Wordml.run)
    {json : Json} {read : Params} (built : Params.ofJson json = .ok read) {σ : Type}
    {change : σ → Param → σ × Param.Kind × String}
    (lists : ∀ state param, (change state param).2.1 = .list → param.kind = .list) {state : σ}
    {params : Params} (changed : (read.traverse change state).2 = params) :
    FillsFree params document (fill document params) ∧
      (fill document params).root = document.root ∧
      (fill document params).isLive document.root = true ∧
      (fill document params).WellFormed ∧
      (∀ id, (fill document params).isLive id = true ↔
        id = document.root ∨ TransGen (fill document params).Lists document.root id) ∧
      ∀ id, (fill document params).isLive id = true →
        (fill document params).attribute? id listKey = none := by
  have keyed : params.Keyed := by
    rw [← changed]
    exact Param.keyedAll_traverseAll lists (Params.keyed_ofJson built)
  obtain ⟨split, upholds, runs, filled⟩ :=
    exists_fill_eq keyed (Wordml.upright_of_parse parsed apart texts)
  have stripped := upholds_stripMarks upholds.upright
  have root := (upholds.trans stripped).ages.root
  rw [← filled] at runs stripped root
  have upright := stripped.upright
  refine ⟨runs, root, root ▸ upright.live, upright.sound.wellFormed, fun id => ?_, fun id live => ?_⟩
  · rw [upright.isLive_iff id, root]
  · rw [filled] at live ⊢
    exact attribute?_stripMarks upholds.upright live

def guestsText : String :=
  "<w:document><w:body><w:p><w:r><w:t>\x7b\x7bGuests.Name\x7d\x7d \x7b\x7bLogo\x7d\x7d</w:t></w:r>" ++
    "</w:p></w:body></w:document>"

def guestsDocument : Document :=
  Document.ofTree false <|
    .node { tag := "w:document" } [.node { tag := "w:body" } [.node { tag := "w:p" }
      [.node { tag := "w:r" } [.node
        { tag := "w:t", text := "\x7b\x7bGuests.Name\x7d\x7d \x7b\x7bLogo\x7d\x7d" } []]]]]

def guestsMembers : List (String × Json) :=
  [("Guests", .array [.object [("Name", .string "Ada\nEve")], .object [("Name", .string "Bob")]]),
    ("Logo", .object [("$image", .object [("path", .string "logo.png")])])]

def drawn (_ : Unit) (param : Param) : Unit × Param.Kind × String :=
  ((), param.kind, if param.image?.isSome then "<w:pict/>" else param.value)

def guestsParams : Params :=
  ((Params.ofMembers guestsMembers).traverse drawn ()).2

/-- Three lines come out of the paragraph, each with its own slots. -/
theorem fill_sound_guests :
    FillsFree guestsParams guestsDocument (fill guestsDocument guestsParams) ∧
      (fill guestsDocument guestsParams).WellFormed ∧
      ((fill guestsDocument guestsParams).children 1).map (fill guestsDocument guestsParams).allText =
        ["Ada", "Eve ", "Bob "] := by
  have parsed : Document.parse guestsText = .ok guestsDocument := by cbv
  have texts : ∀ id < guestsDocument.size, guestsDocument.tag id = Wordml.text →
      (guestsDocument.parent? id).map guestsDocument.tag = some Wordml.run := by decide +kernel
  have built : Params.ofJson (.object guestsMembers) = .ok (Params.ofMembers guestsMembers) := rfl
  have lists : ∀ state param, (drawn state param).2.1 = .list → param.kind = .list :=
    fun _ _ same => same
  have changed : ((Params.ofMembers guestsMembers).traverse drawn ()).2 = guestsParams := rfl
  have sound := fill_sound parsed (by decide)
    (fun id live => texts id (Document.lt_size_of_isLive live)) built lists changed
  exact ⟨sound.1, sound.2.2.2.1, by decide +kernel⟩

end Filling

end WordTemplate
