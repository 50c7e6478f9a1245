import WordTemplate.Proofs.Placeholder.Tidy
import WordTemplate.Proofs.Wordml.Repairing

/-! Repairing the runs of a whole document, one paragraph after the other. A paragraph in which no marker
starts is left alone, and so is all that stands inside it. -/

namespace WordTemplate.Wordml

open Markup
open Markup.Document (Removes)

def Untouched (first second : Document) (id : NodeId) : Prop :=
  ∀ other, other = id ∨ other ∈ first.descendants id → second.node other = first.node other

theorem holdsMarkerStart_of_below {document : Document} (sound : document.Sound)
    {outer inner : NodeId} (inside : inner ∈ document.descendants outer)
    (starts : holdsMarkerStart (document.allText inner) = true) :
    holdsMarkerStart (document.allText outer) = true := by
  rw [holdsMarkerStart, Text.occursIn_iff] at starts ⊢
  refine starts.trans ?_
  have texts : ∀ id, document.allText id =
      String.join ((id :: document.descendants id).map document.text) := fun _ => rfl
  have whole := (sound.descendants_infix inside).trans (List.suffix_cons outer _).isInfix
  obtain ⟨before, after, parts⟩ := whole.map document.text
  rw [texts, texts, ← parts, String.toList_join, String.toList_join, List.flatMap_append,
    List.flatMap_append]
  exact ⟨_, _, rfl⟩

section Whole

variable {first document : Document} {gone : List NodeId}

namespace Untouched

variable {id : NodeId} (untouched : Untouched first document id)
  (removes : Removes gone first document)
include untouched removes

theorem kept (live : first.isLive id = true) : id ∉ gone := by
  intro lost
  have dead := removes.dead id lost
  rw [Document.isLive, untouched id (.inl rfl)] at dead
  rw [Document.isLive] at live
  rw [live] at dead
  exact absurd dead (by decide)

theorem descendants (sound : first.Sound) (live : first.isLive id = true) :
    document.descendants id = first.descendants id := by
  rw [removes.descendants (untouched.kept removes live), List.filter_eq_self]
  intro other below
  rw [decide_eq_true_eq]
  intro lost
  have dead := removes.dead other lost
  have alive := (((sound.descendants id).2 other).mp below).1
  rw [Document.isLive, untouched other (.inr below)] at dead
  rw [Document.isLive] at alive
  rw [alive] at dead
  exact absurd dead (by decide)

omit removes in
theorem text {other : NodeId} (place : other = id ∨ other ∈ first.descendants id) :
    document.text other = first.text other :=
  congrArg (fun node => node.text) (untouched other place)

theorem allText (sound : first.Sound) (live : first.isLive id = true) :
    document.allText id = first.allText id := by
  rw [Document.allText, Document.allText, untouched.descendants removes sound live]
  congr 2
  · exact untouched.text (.inl rfl)
  · exact List.map_congr_left fun other below => untouched.text (.inr below)

end Untouched

/-- What repairing the paragraphs `done` has made of a document: in each paragraph all texts are
complete, or nothing was done. -/
structure Repaired (first : Document) (done : List NodeId) (document : Document) : Prop where
  mends : ∃ gone, Mends first.root gone first document
  settled : ∀ id ∈ paragraphsFrom first first.root,
    AllComplete document id ∨
      Untouched first document id ∧ (id ∈ done → holdsMarkerStart (first.allText id) = false)

theorem repaired_start (plain : Plain first) : Repaired first [] first :=
  ⟨⟨[], .refl first.root plain⟩, fun _ _ => .inr ⟨fun _ _ => rfl, by simp⟩⟩

theorem mem_done_of_below (sound : first.Sound) (live : first.isLive first.root = true)
    {done todo : List NodeId} {outer inner : NodeId}
    (order : paragraphsFrom first first.root = done ++ inner :: todo)
    (member : outer ∈ paragraphsFrom first first.root) (below : inner ∈ first.descendants outer) :
    outer ∈ done := by
  have listed : (paragraphsFrom first first.root).Sublist (first.root :: first.descendants first.root) := by
    have top : (if first.tag first.root = paragraph then [first.root] else []).Sublist [first.root] := by
      split
      · exact List.Sublist.refl _
      · exact List.nil_sublist _
    exact top.append List.filter_sublist
  have ordered := (sound.pairwise_descendants live).sublist listed
  rw [order, List.pairwise_append, List.pairwise_cons] at ordered
  rw [order, List.mem_append, List.mem_cons] at member
  rcases member with early | rfl | late
  · exact early
  · exact absurd below (sound.not_mem_descendants_self outer)
  · exact absurd below (ordered.2.1.1 outer late)

def repairStep (document : Document) (id : NodeId) : Document :=
  if document.isLive id && holdsMarkerStart (document.allText id) then repairParagraph document id
  else document

section Step

variable {done todo : List NodeId} {id : NodeId} (sound : first.Sound)
  (live : first.isLive first.root = true)
  (order : paragraphsFrom first first.root = done ++ id :: todo)
  (repaired : Repaired first done document)
include sound live order repaired

/-- A paragraph without the start of a marker is left alone, and so is all that stands in it. -/
theorem Repaired.leave (quiet : holdsMarkerStart (document.allText id) = false) :
    Repaired first (done ++ [id]) document := by
  have ⟨gone, mends⟩ := repaired.mends
  refine ⟨⟨gone, mends⟩, fun other listed => ?_⟩
  rcases repaired.settled other listed with complete | ⟨untouched, silent⟩
  · exact .inl complete
  · refine .inr ⟨untouched, fun place => ?_⟩
    rcases List.mem_append.mp place with early | last
    · exact silent early
    · obtain rfl := List.mem_singleton.mp last
      have otherLive := (isParagraph_of_mem sound live listed).live
      rw [← untouched.allText mends.removes sound otherLive]
      exact quiet

theorem Repaired.repair (starts : holdsMarkerStart (document.allText id) = true) :
    Repaired first (done ++ [id]) (repairParagraph document id) := by
  have ⟨gone, mends⟩ := repaired.mends
  have member : id ∈ paragraphsFrom first first.root := by
    rw [order]
    simp
  have startParagraph := isParagraph_of_mem sound live member
  have isParagraph := mends.isParagraph startParagraph
  obtain ⟨more, step, complete, _⟩ := mends_repairParagraph mends.plain isParagraph.live
  generalize repairParagraph document id = second at *
  have stands := (mem_paragraphsFrom.mp member).1
  have wide : Mends first.root more document second :=
    step.widen mends.plain.sound <| stands.imp_right fun below => mends.still_below
      (mends.scope_kept sound) (mends.kept startParagraph) below
  refine ⟨⟨gone ++ more, mends.trans wide sound⟩, fun other listed => ?_⟩
  have otherStart := isParagraph_of_mem sound live listed
  have otherHere := mends.isParagraph otherStart
  rcases repaired.settled other listed with whole | ⟨untouched, silent⟩
  · exact .inl (whole.mends step mends.plain.sound otherHere)
  -- Nothing starts inside a paragraph that was left alone when it had its turn.
  have notBelow : id ∉ first.descendants other := by
    intro below
    have quiet := silent (mem_done_of_below sound live order listed below)
    rw [← untouched.descendants mends.removes sound otherStart.live] at below
    have around := holdsMarkerStart_of_below mends.plain.sound below starts
    rw [untouched.allText mends.removes sound otherStart.live, quiet] at around
    exact absurd around (by decide)
  by_cases same : other = id
  · exact .inl (same ▸ complete)
  by_cases inside : other ∈ first.descendants id
  · have here := mends.still_below (mends.kept startParagraph) (mends.kept otherStart) inside
    exact .inl (complete.inner step.plain.sound (step.still_below (step.kept isParagraph)
      (step.kept otherHere) here))
  · -- The two paragraphs stand apart, so that the repair of one does not reach the other.
    refine .inr ⟨fun found place => ?_, fun place => silent ?_⟩
    · rw [step.frame found, untouched found place]
      · rintro rfl
        exact place.elim (fun here => same here.symm) notBelow
      · intro below
        have below := mends.mem_descendants (mends.kept startParagraph) below
        rcases sound.comparable (.inr below) place with atOther | within | around
        · exact same atOther.symm
        · exact notBelow within
        · exact inside around
    · exact (List.mem_append.mp place).resolve_right fun last => same (List.mem_singleton.mp last)

theorem Repaired.step : Repaired first (done ++ [id]) (repairStep document id) := by
  have ⟨gone, mends⟩ := repaired.mends
  have member : id ∈ paragraphsFrom first first.root := by
    rw [order]
    simp
  rw [repairStep, (mends.isParagraph (isParagraph_of_mem sound live member)).live, Bool.true_and]
  split
  · rename_i starts
    exact repaired.repair sound live order starts
  · rename_i quiet
    exact repaired.leave sound live order (by simpa using quiet)

end Step

theorem repaired_foldl (sound : first.Sound) (live : first.isLive first.root = true)
    {done todo : List NodeId} (order : paragraphsFrom first first.root = done ++ todo)
    (repaired : Repaired first done document) :
    Repaired first (done ++ todo) (todo.foldl repairStep document) := by
  induction todo generalizing done document with
  | nil => simpa using repaired
  | cons id todo ih =>
      have step := repaired.step sound live order
      simpa using ih (by simpa using order) step

theorem repaired_repairRuns (plain : Plain first) (live : first.isLive first.root = true) :
    Repaired first (paragraphsFrom first first.root) (repairRuns first) :=
  repaired_foldl plain.sound live (List.nil_append _).symm (repaired_start plain)

/-- In a paragraph where a marker starts after the repair, all texts are complete. -/
theorem Repaired.allComplete (repaired : Repaired first (paragraphsFrom first first.root) document)
    (sound : first.Sound) (live : first.isLive first.root = true) {id : NodeId}
    (member : id ∈ paragraphsFrom first first.root)
    (starts : holdsMarkerStart (document.allText id) = true) : AllComplete document id := by
  obtain ⟨gone, mends⟩ := repaired.mends
  rcases repaired.settled id member with complete | ⟨untouched, silent⟩
  · exact complete
  · have here := isParagraph_of_mem sound live member
    rw [untouched.allText mends.removes sound here.live, silent member] at starts
    exact absurd starts (by decide)

omit document in
/-- Repairing paragraphs removes nodes, or nothing is done and there were no runs to be joined. -/
theorem mends_foldl (plain : Plain first) {scope : NodeId} (live : first.isLive scope = true)
    {ids : List NodeId} (inside : ∀ id ∈ ids, id ∈ paragraphsFrom first scope) :
    ∃ gone, Mends scope gone first (ids.foldl repairStep first) ∧
      (gone = [] → ids.foldl repairStep first = first ∧ ∀ id ∈ ids,
        holdsMarkerStart (first.allText id) = true → (mergeAdjacentRuns first id).2 = 0) := by
  induction ids generalizing first with
  | nil => exact ⟨[], .refl scope plain, fun _ => ⟨rfl, by simp⟩⟩
  | cons id rest ih =>
      have member := inside id (by simp)
      have later : ∀ other ∈ rest, other ∈ paragraphsFrom first scope :=
        fun other listed => inside other (by simp [listed])
      have isParagraph := isParagraph_of_mem plain.sound live member
      rw [List.foldl_cons, repairStep, isParagraph.live, Bool.true_and]
      by_cases starts : holdsMarkerStart (first.allText id) = true
      · rw [if_pos starts]
        obtain ⟨gone, step, _, still, joined⟩ := mends_repairParagraph plain isParagraph.live
        have wide := step.widen plain.sound (mem_paragraphsFrom.mp member).1
        obtain ⟨more, whole, others⟩ := ih wide.plain ((wide.live_scope plain.sound).trans live)
          fun other listed => by
            rw [wide.paragraphsFrom_eq (wide.scope_kept plain.sound)]
            exact later other listed
        refine ⟨gone ++ more, wide.trans whole plain.sound, fun nothing => ?_⟩
        obtain ⟨bare, bareLater⟩ := List.append_eq_nil_iff.mp nothing
        have same := still bare
        rw [same] at others ⊢
        refine ⟨(others bareLater).1, fun other listed opened => ?_⟩
        rcases List.mem_cons.mp listed with rfl | listed
        · exact joined bare
        · exact (others bareLater).2 other listed opened
      · rw [if_neg starts]
        obtain ⟨gone, whole, others⟩ := ih plain live later
        refine ⟨gone, whole, fun nothing => ⟨(others nothing).1, fun other listed opened => ?_⟩⟩
        rcases List.mem_cons.mp listed with rfl | listed
        · exact absurd opened starts
        · exact (others nothing).2 other listed opened

theorem repairRuns_eq (plain : Plain first) (live : first.isLive first.root = true)
    (complete : ∀ id ∈ paragraphsFrom first first.root,
      holdsMarkerStart (first.allText id) = true → AllComplete first id)
    (joined : ∀ id ∈ paragraphsFrom first first.root,
      holdsMarkerStart (first.allText id) = true → (mergeAdjacentRuns first id).2 = 0) :
    repairRuns first = first := by
  have still : ∀ id ∈ paragraphsFrom first first.root, repairStep first id = first := by
    intro id member
    rw [repairStep]
    split
    · rename_i both
      obtain ⟨_, starts⟩ := Bool.and_eq_true_iff.mp both
      exact repairParagraph_eq (joined id member starts) plain
        (isParagraph_of_mem plain.sound live member).live (complete id member starts)
    · rfl
  change (paragraphsFrom first first.root).foldl repairStep first = first
  generalize paragraphsFrom first first.root = ids at still
  induction ids with
  | nil => rfl
  | cons id rest ih =>
      rw [List.foldl_cons, still id (by simp)]
      exact ih fun other member => still other (by simp [member])

end Whole

theorem plain_of_parse {source : String} {document : Document}
    (read : Document.parse source = .ok document) (flat : Flat document) : Plain document :=
  ⟨flat, (Document.Opened.parse read).sound⟩

/-- In no paragraph where a marker starts are there runs left to be joined. -/
def Joined (document : Document) : Prop :=
  ∀ id ∈ paragraphsFrom document document.root,
    holdsMarkerStart (document.allText id) = true → (mergeAdjacentRuns document id).2 = 0

instance (document : Document) : Decidable (Joined document) :=
  inferInstanceAs (Decidable (∀ _ ∈ _, _))

theorem scan_eq_nil {content : String} (none : holdsMarkerStart content = false) :
    Placeholder.scan content = [] := by
  rw [List.eq_nil_iff_forall_not_mem]
  intro placeholder listed
  have lacks : Placeholder.Lacks (fun _ => True) content.toList := by
    refine Placeholder.lacks_of_no_opening fun inside => ?_
    rw [holdsMarkerStart, Text.occursIn_iff.mpr inside] at none
    exact absurd none (by decide)
  exact lacks.scan placeholder listed trivial

def boldRun (content : String) : Tree :=
  .node { tag := run } [.node { tag := runProperties } [.node { tag := "w:b" } []],
    .node { tag := text, text := content } []]

def boldThenPlain (bold plain : String) (rest : List Tree) : Document :=
  .ofTree false <| .node { tag := paragraph } <| boldRun bold ::
    .node { tag := run } [.node { tag := text, text := plain } []] :: rest

/-- The end of the marker is not bold. -/
def splitMarker : Document :=
  boldThenPlain "\x7b\x7bNa" "me\x7d\x7d" []

def splitText : String :=
  "<w:p><w:r><w:rPr><w:b/></w:rPr><w:t>\x7b\x7bNa</w:t></w:r><w:r><w:t>me\x7d\x7d</w:t></w:r></w:p>"

theorem parse_splitText : Document.parse splitText = .ok splitMarker := by
  cbv

theorem flat_splitMarker : Flat splitMarker :=
  flat_of_lt_size (by decide +kernel) (by decide +kernel)

/-- Another bold run stands behind the marker. -/
def splitBeforeBold : Document :=
  boldThenPlain "\x7b\x7bNa" "me\x7d\x7d" [boldRun "!"]

def splitBeforeBoldText : String :=
  "<w:p><w:r><w:rPr><w:b/></w:rPr><w:t>\x7b\x7bNa</w:t></w:r><w:r><w:t>me\x7d\x7d</w:t></w:r><w:r><w:rPr><w:b/></w:rPr><w:t>!</w:t></w:r></w:p>"

/-- The text that ends the first marker opens another one, which never ends. -/
def neverClosed : Document :=
  boldThenPlain "\x7b\x7ba" "\x7d\x7d \x7b\x7bb" []

def neverClosedText : String :=
  "<w:p><w:r><w:rPr><w:b/></w:rPr><w:t>\x7b\x7ba</w:t></w:r><w:r><w:t>\x7d\x7d \x7b\x7bb</w:t></w:r></w:p>"

end WordTemplate.Wordml
