import WordTemplate.Proofs.Filling.Dressing
import WordTemplate.Proofs.Filling.Idle
import WordTemplate.Proofs.Wordml.Repaired

/-! Filling a document with parameters that no placeholder asks for. The texts of each paragraph say what
they said before, and attributes stay. -/

namespace WordTemplate

open Markup
open Markup.Document (Rewritten)
open Markup.Element (except)

namespace Wordml

section Rewriting

variable {first second : Document} (rewritten : Rewritten first second)
include rewritten

theorem paragraphsFrom_rewritten (scope : NodeId) :
    paragraphsFrom second scope = paragraphsFrom first scope :=
  paragraphsFrom_removes rewritten.removes (by simp) (by simp)

theorem readings_rewritten (sound : first.Sound) (same : ∀ id, second.text id = first.text id)
    (id : NodeId) : readings second id = readings first id := by
  rw [readings, readings, ownTexts_removes rewritten.removes sound (by simp)]
  simp [same]

end Rewriting

theorem node_foldl_repairStep {document : Document} (plain : Plain document) {ids : List NodeId}
    {id : NodeId} (apart : ∀ scope ∈ ids, document.tag scope = paragraph ∧ id ≠ scope ∧
      id ∉ document.descendants scope) :
    (ids.foldl repairStep document).node id = document.node id := by
  induction ids generalizing document with
  | nil => rfl
  | cons scope rest ih =>
      obtain ⟨⟨_, notScope, notBelow⟩, others⟩ := List.forall_mem_cons.mp apart
      rw [List.foldl_cons]
      by_cases starts : (document.isLive scope && holdsMarkerStart (document.allText scope)) = true
      · have live := (Bool.and_eq_true_iff.mp starts).1
        obtain ⟨gone, mends, _⟩ := mends_repairParagraph plain live
        rw [repairStep, if_pos starts, ih mends.plain, mends.frame id notScope notBelow]
        intro other member
        obtain ⟨isParagraph, notOther, notInside⟩ := others other member
        refine ⟨(mends.removes.tag other).trans isParagraph, notOther, fun below => notInside ?_⟩
        exact mends.mem_descendants (fun lost => mends.others other lost isParagraph) below
      · rw [repairStep, if_neg starts]
        exact ih plain others

theorem node_repairRuns_of_outside {document : Document} (plain : Plain document) {id : NodeId}
    (isText : document.tag id = text) (outside : document.closest? id [paragraph] = none) :
    (repairRuns document).node id = document.node id := by
  refine node_foldl_repairStep plain fun scope member => ?_
  have isParagraph := (mem_paragraphsFrom.mp member).2
  refine ⟨isParagraph, ?_, fun below => ?_⟩
  · rintro rfl
    rw [isText] at isParagraph
    exact absurd isParagraph (by decide)
  · exact plain.sound.closest?_ne_none (by simp [Document.isAny, isParagraph]) below outside

theorem mem_ownTexts_of_closest? {document : Document} (sound : document.Sound) {id scope : NodeId}
    (live : document.isLive id = true) (isText : document.tag id = text)
    (inside : document.closest? id [paragraph] = some scope) :
    IsParagraph document scope ∧ id ∈ ownTexts document scope := by
  obtain ⟨tagged, scopeLive, place⟩ := sound.below_of_closest? live inside
  have isParagraph : document.tag scope = paragraph := by simpa [Document.isAny] using tagged
  refine ⟨⟨scopeLive, isParagraph⟩, mem_ownTexts.mpr ⟨?_, isText, inside⟩⟩
  rcases place with rfl | below
  · rw [isText] at isParagraph
    exact absurd isParagraph (by decide)
  · exact below

end Wordml

namespace Filling

/-- A text with nothing for a pass to do: no placeholder in it has a parameter or a trigger, and there
is no line feed. -/
structure Still (params : Params) (text : String) : Prop where
  unmatched : Unmatched params text
  untriggered : Untriggered text
  lines : holdsLineFeed text = false

/-- A document in which no placeholder asks for any of the parameters or has a trigger. The texts of a
paragraph are read together too, since repairing runs may bring a placeholder to light there. -/
structure Unaddressed (params : Params) (document : Document) : Prop where
  flat : Wordml.Flat document
  slots : document.AllSlots (Unmatched params)
  lines : ∀ id, document.tag id = Wordml.text → holdsLineFeed (document.text id) = false
  paragraphs : ∀ id, document.tag id = Wordml.paragraph →
    Unmatched params (String.join (Wordml.readings document id)) ∧
      Untriggered (String.join (Wordml.readings document id))
  outside : ∀ id, document.tag id = Wordml.text → document.closest? id [Wordml.paragraph] = none →
    Untriggered (document.text id)

variable {params : Params}

theorem Still.of_join {texts : List String} (still : Still params (String.join texts)) {text : String}
    (member : text ∈ texts) : Still params text := by
  have found : ∀ placeholder ∈ Placeholder.scan text,
      placeholder ∈ Placeholder.scan (String.join texts) := by
    intro placeholder scanned
    apply (Wordml.sublist_scanEach texts).subset
    exact List.mem_flatMap.mpr ⟨text, member, scanned⟩
  refine ⟨fun placeholder scanned => still.unmatched placeholder (found placeholder scanned),
    fun placeholder scanned => still.untriggered placeholder (found placeholder scanned), ?_⟩
  have lines := still.lines
  simp only [holdsLineFeed, List.contains_eq_mem, decide_eq_false_iff_not, String.toList_join,
    List.mem_flatMap, not_exists, not_and] at lines ⊢
  exact lines text member

theorem holdsLineFeed_join {texts : List String} (none : ∀ text ∈ texts, holdsLineFeed text = false) :
    holdsLineFeed (String.join texts) = false := by
  simp only [holdsLineFeed, List.contains_eq_mem, decide_eq_false_iff_not, String.toList_join,
    List.mem_flatMap, not_exists, not_and] at none ⊢
  exact none

theorem unmatched_preserve : Unmatched params "preserve" := by
  have none : Placeholder.scan "preserve" = [] := by decide +kernel
  intro placeholder scanned
  rw [none] at scanned
  simp at scanned

variable {document : Document}

theorem Unaddressed.still_join (unaddressed : Unaddressed params document) {id : NodeId}
    (isParagraph : document.tag id = Wordml.paragraph) :
    Still params (String.join (Wordml.readings document id)) := by
  obtain ⟨unmatched, untriggered⟩ := unaddressed.paragraphs id isParagraph
  refine ⟨unmatched, untriggered, holdsLineFeed_join fun text member => ?_⟩
  obtain ⟨found, own, rfl⟩ := List.mem_map.mp member
  exact unaddressed.lines found (Wordml.mem_ownTexts.mp own).2.1

section Preparing

variable (plain : Wordml.Plain document)
include plain

theorem plain_markLists : Wordml.Plain (markLists document) :=
  have marked := (marks_markLists document).rewritten
  plain.removes marked.removes (marked.sound plain.sound)

theorem readings_markLists (id : NodeId) :
    Wordml.readings (markLists document) id = Wordml.readings document id :=
  have marks := marks_markLists document
  Wordml.readings_rewritten marks.rewritten plain.sound marks.text id

variable (live : document.isLive document.root = true)
include live

theorem mends_prepare :
    ∃ gone, Wordml.Mends (markLists document).root gone (markLists document) (prepare document) := by
  have marked := (marks_markLists document).rewritten
  refine (Wordml.repaired_repairRuns (plain_markLists plain) ?_).mends
  rw [marked.links.isLive, marked.ages.root]
  exact live

theorem root_prepare : (prepare document).root = document.root := by
  obtain ⟨gone, mends⟩ := mends_prepare plain live
  exact mends.removes.root.trans (marks_markLists document).rewritten.ages.root

theorem live_prepare : (prepare document).isLive (prepare document).root = true := by
  obtain ⟨gone, mends⟩ := mends_prepare plain live
  have sound := (plain_markLists plain).sound
  have marked := (marks_markLists document).rewritten
  rw [mends.removes.root, mends.removes.live _ (mends.scope_kept sound), marked.links.isLive,
    marked.ages.root]
  exact live

theorem paragraphsFrom_prepare :
    Wordml.paragraphsFrom (prepare document) (prepare document).root =
      Wordml.paragraphsFrom document document.root := by
  obtain ⟨gone, mends⟩ := mends_prepare plain live
  have marked := (marks_markLists document).rewritten
  rw [mends.removes.root, mends.paragraphsFrom_eq (mends.scope_kept (plain_markLists plain).sound),
    marked.ages.root, Wordml.paragraphsFrom_rewritten marked]

theorem join_readings_prepare {id : NodeId} (isParagraph : Wordml.IsParagraph document id) :
    String.join (Wordml.readings (prepare document) id) =
      String.join (Wordml.readings document id) := by
  obtain ⟨gone, mends⟩ := mends_prepare plain live
  have removes := (marks_markLists document).rewritten.removes
  have marked : Wordml.IsParagraph (markLists document) id :=
    ⟨(removes.live id (by simp)).trans isParagraph.live, (removes.tag id).trans isParagraph.tag⟩
  rw [(mends.fused id marked).join_eq, readings_markLists plain]

/-- The document that the passes start from has no more to offer than the one that was read. -/
theorem Unaddressed.still_prepare (unaddressed : Unaddressed params document) {id : NodeId}
    (alive : (prepare document).isLive id = true) (isText : (prepare document).tag id = Wordml.text) :
    Still params ((prepare document).text id) := by
  obtain ⟨gone, mends⟩ := mends_prepare plain live
  have marks := marks_markLists document
  have removes := marks.rewritten.removes
  have marked := plain_markLists plain
  have kept : id ∉ gone := by
    intro lost
    rw [mends.removes.dead id lost] at alive
    exact absurd alive (by decide)
  have wasText : (markLists document).tag id = Wordml.text := (mends.removes.tag id).symm.trans isText
  have first : document.tag id = Wordml.text := (removes.tag id).symm.trans wasText
  have wasLive : (markLists document).isLive id = true := (mends.removes.live id kept).symm.trans alive
  cases inside : (prepare document).closest? id [Wordml.paragraph] with
  | none =>
      rw [mends.removes.closest? marked.sound wasLive kept] at inside
      have same : (prepare document).text id = document.text id := by
        rw [Document.text, prepare, Wordml.node_repairRuns_of_outside marked wasText inside]
        exact marks.text id
      rw [removes.closest? plain.sound ((removes.live id (by simp)).symm.trans wasLive) (by simp)] at inside
      rw [same]
      exact ⟨(unaddressed.slots id trivial (by simp)).text first, unaddressed.outside id first inside,
        unaddressed.lines id first⟩
  | some scope =>
      obtain ⟨isParagraph, own⟩ := Wordml.mem_ownTexts_of_closest? mends.plain.sound alive isText inside
      have scopeKept : scope ∉ gone := by
        intro lost
        have dead := mends.removes.dead scope lost
        rw [isParagraph.live] at dead
        exact absurd dead (by decide)
      have paragraph : Wordml.IsParagraph document scope := by
        refine ⟨?_, ?_⟩
        · rw [← removes.live scope (by simp), ← mends.removes.live scope scopeKept]
          exact isParagraph.live
        · rw [← removes.tag, ← mends.removes.tag]
          exact isParagraph.tag
      have joined := unaddressed.still_join paragraph.tag
      rw [← join_readings_prepare plain live paragraph] at joined
      exact joined.of_join (List.mem_map_of_mem own)

theorem Unaddressed.idle (unaddressed : Unaddressed params document) (keyed : params.Keyed)
    (named : params.Named) : Idle params (prepare document) where
  keyed := keyed
  named := named
  slots := by
    have slots := (keeps_markLists document).slots unaddressed.slots
    refine fun id _ alive => ⟨fun isText => ?_, ?_⟩
    · exact (unaddressed.still_prepare plain live (alive rfl) isText).unmatched
    · exact (Wordml.Dresses.repairRuns _).value unmatched_preserve (slots.value id)
  triggers := fun _ alive isText => (unaddressed.still_prepare plain live alive isText).untriggered
  lines := fun _ alive isText => (unaddressed.still_prepare plain live alive isText).lines

end Preparing

theorem text_stripMarks (document : Document) (id : NodeId) :
    (stripMarks document).text id = document.text id := by
  refine List.foldlRecOn (motive := fun middle : Document => middle.text id = document.text id) _ _ rfl
    fun middle same other _ => ?_
  rw [Document.removeAttribute, Document.text, Document.node_modify]
  split
  · exact same
  · exact same

/-- Where no placeholder asks for the parameters, only runs are repaired: paragraphs, what they say and
all attributes stay. -/
theorem fill_unaddressed {source : String} (read : Document.parse source = .ok document)
    (keyed : params.Keyed) (named : params.Named) (unaddressed : Unaddressed params document) :
    let result := fill document params
    result.root = document.root ∧ result.isLive result.root = true ∧
      Wordml.paragraphsFrom result result.root = Wordml.paragraphsFrom document document.root ∧
      (∀ id ∈ Wordml.paragraphsFrom document document.root,
        String.join (Wordml.readings result id) = String.join (Wordml.readings document id)) ∧
      ∀ id, id = result.root ∨ id ∈ result.descendants result.root →
        (result.node id).attributes = unmarked document id ∨
          document.tag id = Wordml.text ∧
            (result.node id).attributes = Wordml.preserved (unmarked document id) := by
  have plain := Wordml.plain_of_parse read unaddressed.flat
  have live := Document.isLive_root_of_parse read
  have done : fill document params = stripMarks (prepare document) :=
    (unaddressed.idle plain live keyed named).passes (live_prepare plain live)
  have stripped : Document.Rewritten (prepare document) (stripMarks (prepare document)) :=
    Document.rewritten_removeAttributeDeep _ _ _
  obtain ⟨_, mends⟩ := mends_prepare plain live
  have marks := marks_markLists document
  have dresses := Wordml.Dresses.repairRuns (markLists document)
  have distinct : ∀ id, DistinctKeys ((prepare document).node id).attributes := fun id =>
    dresses.distinctKeys (marks.distinct id (Document.distinctKeys_of_parse read id))
  simp only [done, stripped.ages.root]
  refine ⟨root_prepare plain live, ?_, ?_, fun id member => ?_, fun id inside => ?_⟩
  · rw [stripped.links.isLive]
    exact live_prepare plain live
  · rw [Wordml.paragraphsFrom_rewritten stripped, paragraphsFrom_prepare plain live]
  · rw [Wordml.readings_rewritten stripped mends.plain.sound (text_stripMarks _)]
    exact join_readings_prepare plain live (Wordml.isParagraph_of_mem plain.sound live member)
  · rw [stripped.removes.descendants (by simp)] at inside
    rw [attributes_stripMarks distinct (by simpa using inside), ← marks.unmarked]
    rcases dresses.attributes id with same | ⟨isText, same⟩
    · exact .inl (congrArg (except listKey) same)
    · refine .inr ⟨(marks.rewritten.removes.tag id).symm.trans isText, ?_⟩
      exact (congrArg (except listKey) same).trans (Element.except_set_of_ne (by decide))

theorem unaddressed_of_lt_size (flat : Wordml.Flat document)
    (slots : document.AllSlots (Unmatched params))
    (lines : ∀ id < document.size, document.tag id = Wordml.text →
      holdsLineFeed (document.text id) = false)
    (paragraphs : ∀ id < document.size, document.tag id = Wordml.paragraph →
      Unmatched params (String.join (Wordml.readings document id)) ∧
        Untriggered (String.join (Wordml.readings document id)))
    (outside : ∀ id < document.size, document.tag id = Wordml.text →
      document.closest? id [Wordml.paragraph] = none → Untriggered (document.text id)) :
    Unaddressed params document := by
  have inside : ∀ id, document.tag id ≠ "" → id < document.size := by
    intro id named
    by_contra beyond
    exact named (by rw [Document.tag, Document.node_of_le_size (Nat.le_of_not_lt beyond)]; rfl)
  refine ⟨flat, slots, fun id isText => ?_, fun id isParagraph => ?_, fun id isText => ?_⟩
  · exact lines id (inside id (isText ▸ by decide)) isText
  · exact paragraphs id (inside id (isParagraph ▸ by decide)) isParagraph
  · exact outside id (inside id (isText ▸ by decide)) isText

/-- A paragraph of a list with a placeholder that goes over two runs. -/
def splitItem : Document :=
  Document.ofTree false <| .node { tag := Wordml.paragraph }
    [.node { tag := Wordml.paragraphProperties }
      [.node { tag := Wordml.numberingProperties }
        [.node { tag := Wordml.numberingId, attributes := [⟨Wordml.valueKey, "7"⟩] } []]],
    .node { tag := Wordml.run } [.node { tag := Wordml.text, text := "\x7b\x7bNa" } []],
    .node { tag := Wordml.run } [.node { tag := Wordml.text, text := "me\x7d\x7d " } []]]

def splitItemText : String :=
  "<w:p><w:pPr><w:numPr><w:numId w:val='7'/></w:numPr></w:pPr>" ++
    "<w:r><w:t>\x7b\x7bNa</w:t></w:r><w:r><w:t>me\x7d\x7d </w:t></w:r></w:p>"

def otherParams : Params :=
  .ofMembers [("Street", .string "x")]

theorem unaddressed_splitItem : Unaddressed otherParams splitItem :=
  unaddressed_of_lt_size (Wordml.flat_of_lt_size (by decide +kernel) (by decide +kernel))
    (Document.slots_of_lt_size (by decide +kernel) (by decide +kernel)) (by decide +kernel)
    (by decide +kernel) (by decide +kernel)

/-- The runs are joined, and the placeholder stays. -/
theorem fill_unaddressed_split :
    Wordml.readings splitItem 0 = ["\x7b\x7bNa", "me\x7d\x7d "] ∧
      Wordml.readings (fill splitItem otherParams) 0 = ["\x7b\x7bName\x7d\x7d "] ∧
      String.join (Wordml.readings (fill splitItem otherParams) 0) =
        String.join (Wordml.readings splitItem 0) := by
  have parsed : Document.parse splitItemText = .ok splitItem := by cbv
  have filled := fill_unaddressed parsed (Params.keyed_ofMembers _) (by decide +kernel)
    unaddressed_splitItem
  exact ⟨by decide +kernel, by decide +kernel, filled.2.2.2.1 0 (by decide +kernel)⟩

end Filling

end WordTemplate
