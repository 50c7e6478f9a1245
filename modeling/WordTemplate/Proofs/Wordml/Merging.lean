import WordTemplate.Proofs.Filling.Repairs
import WordTemplate.Proofs.Wordml.Paragraphs

/-! Joining runs and completing markers. Both take texts of a paragraph into the ones before them, and
when markers have been completed, no text is left that the ones behind it complete. -/

namespace WordTemplate.Wordml

open Markup
open Markup.Document (Removes SameLinks Rewritten)

structure Restyles (target : NodeId) (first second : Document) : Prop where
  rewritten : Rewritten first second
  frame : ∀ id, id ≠ target → second.node id = first.node id

namespace Restyles

variable {target : NodeId} {first second third : Document}

theorem refl (target : NodeId) (document : Document) : Restyles target document document :=
  ⟨⟨.refl document, .refl document, rfl⟩, fun _ _ => rfl⟩

theorem trans (left : Restyles target first second) (right : Restyles target second third) :
    Restyles target first third where
  rewritten := ⟨left.rewritten.ages.trans right.rewritten.ages,
    left.rewritten.links.trans right.rewritten.links,
    right.rewritten.size.trans left.rewritten.size⟩
  frame := fun id apart => (right.frame id apart).trans (left.frame id apart)

theorem modify (document : Document) (target : NodeId) {change : Node → Node}
    (live : ∀ node : Node, (change node).live = node.live)
    (parent : ∀ node : Node, (change node).parent = node.parent)
    (children : ∀ node : Node, (change node).children = node.children)
    (tag : ∀ node : Node, (change node).tag = node.tag) :
    Restyles target document (document.modify target change) := by
  refine ⟨Document.rewritten_modify document target live parent children tag, fun id apart => ?_⟩
  rw [Document.node_modify, if_neg fun both => apart both.1]

theorem removes (restyles : Restyles target first second) : Removes [] first second :=
  restyles.rewritten.removes

end Restyles

theorem restyles_pushText (document : Document) (target : NodeId) (content : String) :
    Restyles target document (document.pushText target content) :=
  .modify document target (fun _ => rfl) (fun _ => rfl) (fun _ => rfl) fun _ => rfl

theorem restyles_preserveSpace (document : Document) (target : NodeId) :
    Restyles target document (preserveSpace document target) := by
  rw [preserveSpace]
  split
  · exact .modify document target (fun _ => rfl) (fun _ => rfl) (fun _ => rfl) fun _ => rfl
  · exact .refl target document

theorem text_preserveSpace (document : Document) (target id : NodeId) :
    (preserveSpace document target).text id = document.text id := by
  rw [preserveSpace]
  split
  · rw [Document.setAttribute, Document.text, Document.node_modify]
    split <;> rfl
  · rfl

theorem text_pushText {document : Document} {target : NodeId} (bound : target < document.size)
    (content : String) (id : NodeId) :
    (document.pushText target content).text id =
      if id = target then document.text target ++ content else document.text id := by
  rw [Document.pushText, Document.text, Document.node_modify]
  by_cases here : id = target
  · subst here
    simp [bound, Document.text]
  · simp [here, Document.text]

theorem children_of_soleText? {document : Document} {id found : NodeId}
    (sole : soleText? document id = some found) :
    document.Lists id found ∧
      ∀ child, document.Lists id child → child = found ∨ document.tag child = runProperties := by
  have only : (document.children id).filter (fun child => document.tag child != runProperties) = [found] := by
    unfold soleText? at sole
    split at sole
    · rename_i child only
      split at sole
      · cases sole
        exact only
      · simp at sole
    · simp at sole
  constructor
  · have member : found ∈ (document.children id).filter
        (fun child => document.tag child != runProperties) := by
      rw [only]
      exact List.mem_singleton_self found
    exact (List.mem_filter.mp member).1
  · intro child lists
    by_cases isProperties : document.tag child = runProperties
    · exact .inr isProperties
    · have here : child ∈ (document.children id).filter
          (fun child => document.tag child != runProperties) :=
        List.mem_filter.mpr ⟨lists, by simpa using isProperties⟩
      rw [only, List.mem_singleton] at here
      exact .inl here

section Runs

variable {document : Document} (plain : Plain document)
include plain

theorem sole_of_soleText? {run found : NodeId} (isRun : document.tag run = Wordml.run)
    (sole : soleText? document run = some found) :
    document.Lists run found ∧ ∀ id ∈ run :: document.descendants run,
      (document.tag id = text → id = found) ∧ document.tag id ≠ paragraph := by
  obtain ⟨lists, others⟩ := children_of_soleText? sole
  have isText := isText_of_soleText? sole
  refine ⟨lists, fun id member => ?_⟩
  rcases List.mem_cons.mp member with rfl | below
  · rw [isRun]
    exact ⟨fun same => absurd same (by decide), by decide⟩
  · obtain ⟨child, listed, place⟩ := plain.sound.mem_descendants_iff.mp below
    rcases others child listed with rfl | isProperties
    · rcases place with rfl | deeper
      · refine ⟨fun _ => rfl, ?_⟩
        rw [isText]
        decide
      · obtain ⟨inner, nothing, _⟩ := plain.sound.mem_descendants_iff.mp deeper
        rw [Document.Lists, plain.texts child isText] at nothing
        simp at nothing
    · rcases place with rfl | deeper
      · rw [isProperties]
        exact ⟨fun same => absurd same (by decide), by decide⟩
      · have none := plain.properties child isProperties id deeper
        exact ⟨fun same => absurd same none.1, none.2⟩

theorem closest?_of_run {scope run found : NodeId} (isParagraph : IsParagraph document scope)
    (inScope : document.Lists scope run) (isRun : document.tag run = Wordml.run)
    (inRun : document.Lists run found) (isText : document.tag found = text) :
    document.closest? found [paragraph] = some scope := by
  have wellFormed := plain.sound.wellFormed
  have runAbove : document.parent? run = some scope := wellFormed.above inScope
  have textAbove : document.parent? found = some run := wellFormed.above inRun
  rw [plain.sound.closest?_eq (wellFormed.child_live inRun), textAbove, Option.bind_some,
    plain.sound.closest?_eq (wellFormed.child_live inScope), runAbove, Option.bind_some,
    plain.sound.closest?_eq isParagraph.live]
  simp [Document.isAny, isText, isRun, isParagraph.tag, text, Wordml.run, paragraph]

end Runs

def ownBelow (document : Document) (scope child : NodeId) : List NodeId :=
  (child :: document.descendants child).filter fun found =>
    document.isAny [text] found && document.closest? found [paragraph] = some scope

theorem ownTexts_eq_flatMap {document : Document} (sound : document.Sound) {scope : NodeId}
    (live : document.isLive scope = true) :
    ownTexts document scope = (document.children scope).flatMap (ownBelow document scope) := by
  rw [ownTexts, Document.findAll, sound.descendants_eq live, List.filter_filter, List.filter_flatMap]
  apply List.flatMap_congr
  intro child _
  rw [ownBelow]
  apply List.filter_congr
  intro found _
  rw [Bool.and_comm]

theorem ownBelow_of_run {document : Document} (plain : Plain document) {scope run found : NodeId}
    (isParagraph : IsParagraph document scope) (inScope : document.Lists scope run)
    (isRun : document.tag run = Wordml.run) (sole : soleText? document run = some found) :
    ownBelow document scope run = [found] := by
  obtain ⟨inRun, others⟩ := sole_of_soleText? plain isRun sole
  have isText := isText_of_soleText? sole
  have closest := closest?_of_run plain isParagraph inScope isRun inRun isText
  have nodup : (run :: document.descendants run).Nodup :=
    List.nodup_cons.mpr ⟨plain.sound.not_mem_descendants_self run, (plain.sound.descendants run).1⟩
  have member : found ∈ run :: document.descendants run :=
    List.mem_cons_of_mem _ (plain.sound.mem_descendants_iff.mpr ⟨found, inRun, .inl rfl⟩)
  have only : ownBelow document scope run =
      (run :: document.descendants run).filter (· == found) := by
    apply List.filter_congr
    intro id listed
    by_cases here : id = found
    · subst here
      simp [Document.isAny, isText, closest]
    · have notText : document.tag id ≠ text := fun same => here ((others id listed).1 same)
      simp [here, Document.isAny, notText]
  rw [only, List.filter_beq, List.count_eq_one_of_mem nodup member]
  rfl

theorem ownBelow_removes {first second : Document} {gone : List NodeId}
    (removes : Removes gone first second) (sound : first.Sound) {scope child : NodeId}
    (lists : first.Lists scope child) (kept : child ∉ gone) :
    ownBelow second scope child = (ownBelow first scope child).filter (· ∉ gone) := by
  have whole : child :: second.descendants child =
      (child :: first.descendants child).filter (· ∉ gone) := by
    rw [removes.descendants kept, List.filter_cons_of_pos (by simpa using kept)]
  rw [ownBelow, ownBelow, whole]
  simp only [List.filter_filter]
  apply List.filter_congr
  intro found member
  by_cases lost : found ∈ gone
  · simp [lost]
  · have live : first.isLive found = true := by
      rcases List.mem_cons.mp member with rfl | below
      · exact sound.wellFormed.child_live lists
      · exact (((sound.descendants child).2 found).mp below).1
    rw [removes.closest? sound live lost]
    simp [lost, Document.isAny, removes.tag]

theorem text_delete {document : Document} (sound : document.Sound) (id other : NodeId) :
    (document.delete id).text other = document.text other :=
  congrArg Element.text (sound.toElement_delete id other)

theorem text_deleteText {document : Document} (sound : document.Sound) (id other : NodeId) :
    (deleteText document id).text other = document.text other := by
  rw [deleteText]
  split
  · exact text_delete sound id other
  · split
    · rw [text_delete (sound.delete id), text_delete sound]
    · exact text_delete sound id other

section Moving

variable {document pushed : Document} {scope target source holder : NodeId} {front back : List NodeId}

/-- A text is moved into the one before it in its paragraph, and what holds it is deleted, if no other
text stands there. -/
theorem mends_moveText (plain : Plain document) (isParagraph : IsParagraph document scope)
    (neighbours : ownTexts document scope = front ++ target :: source :: back)
    (below : holder ∈ document.descendants scope)
    (inside : source ∈ holder :: document.descendants holder)
    (others : ∀ id ∈ holder :: document.descendants holder,
      (document.tag id = text → id = source) ∧ document.tag id ≠ paragraph)
    (restyles : Restyles target document pushed)
    (moved : ∀ id, pushed.text id =
      if id = target then document.text target ++ document.text source else document.text id) :
    Mends scope (holder :: document.descendants holder) document (pushed.delete holder) ∧
      ownTexts (pushed.delete holder) scope = front ++ target :: back := by
  have sound := restyles.rewritten.sound plain.sound
  have same : ∀ id, pushed.descendants id = document.descendants id := by
    intro id
    rw [restyles.removes.descendants (by simp)]
    simp
  have removes : Removes (holder :: document.descendants holder) document (pushed.delete holder) := by
    have live : pushed.isLive holder = true := by
      rw [restyles.rewritten.links.isLive]
      exact (((plain.sound.descendants scope).2 holder).mp below).1
    have deleted := restyles.removes.trans (sound.removes_delete live)
    rwa [same, List.nil_append] at deleted
  have targetBelow : target ∈ document.descendants scope :=
    (mem_ownTexts.mp (neighbours ▸ (by simp : target ∈ front ++ target :: source :: back))).1
  refine mends_absorb plain (sound.delete holder) removes (fun id lost => ?_)
    (fun id lost => (others id lost).2) inside (fun id lost => (others id lost).1) neighbours
    isParagraph ?_ ?_ ?_
  · exact plain.sound.descendants_subset below lost
  · rw [text_delete sound, moved, if_pos rfl]
  · intro id apart
    rw [text_delete sound, moved, if_neg apart]
  · intro id apart outside
    rw [sound.node_delete_of_below ((same scope).symm ▸ below) apart ((same scope).symm ▸ outside)]
    refine restyles.frame id ?_
    rintro rfl
    exact outside targetBelow

/-- A run is joined to the one in front of it that holds the text `target`. -/
theorem mends_joinRun {run : NodeId} (plain : Plain document) (isParagraph : IsParagraph document scope)
    (inScope : document.Lists scope run) (isRun : document.tag run = Wordml.run)
    (sole : soleText? document run = some source)
    (neighbours : ownTexts document scope = front ++ target :: source :: back) :
    Mends scope (run :: document.descendants run) document
      ((preserveSpace (document.pushText target (document.text source)) target).delete run) := by
  obtain ⟨inRun, others⟩ := sole_of_soleText? plain isRun sole
  have targetBelow := (mem_ownTexts.mp
    (neighbours ▸ (by simp : target ∈ front ++ target :: source :: back))).1
  have targetBound : target < document.size :=
    Document.lt_size_of_isLive (((plain.sound.descendants scope).2 target).mp targetBelow).1
  refine (mends_moveText plain isParagraph neighbours (plain.sound.mem_descendants (.inl rfl) inScope)
    (List.mem_cons_of_mem _ (plain.sound.mem_descendants (.inl rfl) inRun)) others
    ((restyles_pushText document target (document.text source)).trans
      (restyles_preserveSpace _ target)) fun id => ?_).1
  rw [text_preserveSpace, text_pushText targetBound]

end Moving

theorem filter_children {document : Document} (sound : document.Sound) {parent child : NodeId}
    {front rest : List NodeId} (children : document.children parent = front ++ child :: rest) :
    (document.children parent).filter (· ∉ child :: document.descendants child) = front ++ rest := by
  have listed : ∀ other ∈ front ++ child :: rest, document.Lists parent other := fun other member => by
    rwa [Document.Lists, children]
  have nodup := sound.wellFormed.nodup parent
  rw [children, List.nodup_append, List.nodup_cons] at nodup
  obtain ⟨_, ⟨notBehind, _⟩, apart⟩ := nodup
  have kept : ∀ others : List NodeId, (∀ other ∈ others, other ∈ front ++ child :: rest) →
      child ∉ others → others.filter (· ∉ child :: document.descendants child) = others := by
    intro others within notThere
    rw [List.filter_eq_self]
    intro other member
    rw [decide_eq_true_eq]
    refine sound.not_mem_descendants_sibling (listed child (by simp)) (listed other (within _ member)) ?_
    rintro rfl
    exact notThere member
  rw [children, List.filter_append, List.filter_cons_of_neg (by simp),
    kept front (fun other member => List.mem_append_left _ member) ?_,
    kept rest (fun other member => by simp [member]) notBehind]
  exact fun member => apart child member child (by simp) rfl

/-- The text that a run can be joined to is the only one of a child further in front. -/
def Anchored (document : Document) (scope : NodeId) (front : List NodeId) (anchor : Anchor) : Prop :=
  ∃ before child, front = before ++ [child] ∧ ownBelow document scope child = [anchor.text]

theorem Anchored.joined {document next : Document} (plain : Plain document)
    {scope run found : NodeId} {front rest : List NodeId} {anchor : Anchor}
    (anchored : Anchored document scope front anchor) (isRun : document.tag run = Wordml.run)
    (sole : soleText? document run = some found) (apart : anchor.text ≠ found)
    (children : document.children scope = front ++ run :: rest)
    (mends : Mends scope (run :: document.descendants run) document next) :
    Anchored next scope front anchor := by
  obtain ⟨before, last, rfl, own⟩ := anchored
  have listed : ∀ child ∈ before ++ [last] ++ run :: rest, document.Lists scope child :=
    fun child member => by rwa [Document.Lists, children]
  have distinct : last ≠ run := by
    have nodup := plain.sound.wellFormed.nodup scope
    rw [children] at nodup
    rintro rfl
    simp [List.nodup_append] at nodup
  have kept : last ∉ run :: document.descendants run :=
    plain.sound.not_mem_descendants_sibling (listed run (by simp)) (listed last (by simp)) distinct
  refine ⟨before, last, rfl, ?_⟩
  rw [ownBelow_removes mends.removes plain.sound (listed last (by simp)) kept, own,
    List.filter_cons_of_pos, List.filter_nil]
  rw [decide_eq_true_eq]
  have isText : document.tag anchor.text = text := by
    have member : anchor.text ∈ ownBelow document scope last := by simp [own]
    simpa [Document.isAny] using (Bool.and_eq_true_iff.mp (List.mem_filter.mp member).2).1
  exact fun lost => apart (((sole_of_soleText? plain isRun sole).2 anchor.text lost).1 isText)

theorem mended_joinRuns {document : Document} (plain : Plain document) {scope : NodeId}
    (isParagraph : IsParagraph document scope) {anchor : Option Anchor} {front rest : List NodeId}
    (children : document.children scope = front ++ rest)
    (anchored : ∀ found ∈ anchor, Anchored document scope front found) :
    Mended scope document (joinRuns document anchor rest) := by
  induction rest generalizing document anchor front with
  | nil => exact .unchanged scope plain
  | cons child rest ih =>
      have inScope : document.Lists scope child := by
        rw [Document.Lists, children]
        simp
      have further : document.children scope = (front ++ [child]) ++ rest := by
        simpa using children
      unfold joinRuns
      split
      · exact ih plain isParagraph further (by simp)
      · rename_i found sole
        obtain ⟨isRun, sole⟩ : document.tag child = run ∧ soleText? document child = some found := by
          split at sole
          · exact ⟨‹_›, sole⟩
          · simp at sole
        have own := ownBelow_of_run plain isParagraph inScope isRun sole
        simp only
        split
        · -- The run is joined to the anchor, which goes on to be the last text in front.
          rename_i target same
          have stands := anchored target (Option.filter_eq_some_iff.mp same).1
          have ⟨before, last, fronts, targetOwn⟩ := stands
          have neighbours : ownTexts document scope =
              before.flatMap (ownBelow document scope) ++ target.text :: found ::
                rest.flatMap (ownBelow document scope) := by
            rw [ownTexts_eq_flatMap plain.sound isParagraph.live, children, fronts]
            simp [targetOwn, own]
          have apart : target.text ≠ found := by
            have nodup := nodup_ownTexts plain.sound scope
            rw [neighbours] at nodup
            intro same
            simp [List.nodup_append, same] at nodup
          have mends := mends_joinRun plain isParagraph inScope isRun sole neighbours
          have anchoredNext := stands.joined plain isRun sole apart children mends
          have childrenNext := mends.removes.children scope (mends.kept isParagraph)
          rw [filter_children plain.sound children] at childrenNext
          have later := ih mends.plain (mends.isParagraph isParagraph) childrenNext
            fun other member => Option.mem_some_iff.mp member ▸ anchoredNext
          rw [Nat.add_comm]
          exact .trans (.of_mends mends (by simp) Nat.one_ne_zero) later plain.sound
        · refine ih plain isParagraph further ?_
          intro anchor same
          cases same
          exact ⟨front, child, rfl, own⟩

theorem mends_deleteRun {document : Document} (plain : Plain document) {scope run : NodeId}
    (isParagraph : IsParagraph document scope) (below : run ∈ document.descendants scope)
    (isRun : document.tag run = Wordml.run)
    (bare : ∀ child ∈ document.children run, document.tag child = runProperties) :
    Mends scope (run :: document.descendants run) document (document.delete run) ∧
      ownTexts (document.delete run) scope = ownTexts document scope := by
  have live := (((plain.sound.descendants scope).2 run).mp below).1
  refine mends_quiet plain (plain.sound.delete run) (plain.sound.removes_delete live)
    (fun id lost => plain.sound.descendants_subset below lost) (fun id lost => ?_) isParagraph
    (text_delete plain.sound run)
    fun id apart outside => plain.sound.node_delete_of_below below apart outside
  rcases List.mem_cons.mp lost with rfl | deeper
  · rw [isRun]
    decide
  · obtain ⟨child, listed, place⟩ := plain.sound.mem_descendants_iff.mp deeper
    have isProperties := bare child listed
    rcases place with rfl | inside
    · rw [isProperties]
      decide
    · exact (plain.properties child isProperties id inside).symm

section Taking

variable {document : Document} {scope target source : NodeId} {front back : List NodeId}

/-- A text is moved into the one before it in its paragraph, and leaves its place. -/
theorem mends_pushText (plain : Plain document) (isParagraph : IsParagraph document scope)
    (neighbours : ownTexts document scope = front ++ target :: source :: back) :
    Mends scope [source] document
        ((document.pushText target (document.text source)).delete source) ∧
      ownTexts ((document.pushText target (document.text source)).delete source) scope =
        front ++ target :: back := by
  have own : ∀ id, id = target ∨ id = source → id ∈ document.descendants scope ∧
      document.tag id = text := by
    intro id place
    have member : id ∈ ownTexts document scope := by
      rw [neighbours]
      simpa using .inr (place.imp_right .inl)
    exact ⟨(mem_ownTexts.mp member).1, (mem_ownTexts.mp member).2.1⟩
  obtain ⟨targetBelow, _⟩ := own target (.inl rfl)
  obtain ⟨sourceBelow, isText⟩ := own source (.inr rfl)
  have targetLive := (((plain.sound.descendants scope).2 target).mp targetBelow).1
  have alone : document.descendants source = [] := by
    rw [List.eq_nil_iff_forall_not_mem]
    intro id deeper
    obtain ⟨child, listed, _⟩ := plain.sound.mem_descendants_iff.mp deeper
    rw [Document.Lists, plain.texts source isText] at listed
    simp at listed
  have moved := mends_moveText plain isParagraph neighbours sourceBelow (List.mem_cons_self ..)
    (fun id member => ?_) (restyles_pushText document target (document.text source))
    (text_pushText (Document.lt_size_of_isLive targetLive) (document.text source))
  · rwa [alone] at moved
  · rw [alone, List.mem_singleton] at member
    subst member
    refine ⟨fun _ => rfl, ?_⟩
    rw [isText]
    decide

/-- A text is taken into the one before it, and the run around it goes when nothing is left there. -/
theorem mends_takeText (plain : Plain document) (isParagraph : IsParagraph document scope)
    (neighbours : ownTexts document scope = front ++ target :: source :: back) :
    ∃ gone, gone ≠ [] ∧
      Mends scope gone document
        (deleteText (document.pushText target (document.text source)) source) ∧
      ownTexts (deleteText (document.pushText target (document.text source)) source) scope =
        front ++ target :: back := by
  obtain ⟨mends, own⟩ := mends_pushText plain isParagraph neighbours
  rw [deleteText]
  split
  · exact ⟨[source], by simp, mends, own⟩
  · rename_i parent above
    split
    · rename_i bare
      simp only [Bool.and_eq_true, decide_eq_true_eq, List.all_eq_true] at bare
      have member : source ∈ ownTexts document scope := by
        rw [neighbours]
        simp
      obtain ⟨sourceBelow, isText, _⟩ := mem_ownTexts.mp member
      rw [(restyles_pushText ..).rewritten.links.parent?] at above
      have isRun : document.tag parent = run := by
        rw [← mends.removes.tag]
        exact bare.1
      have parentBelow : parent ∈ document.descendants scope := by
        have live := (((plain.sound.descendants scope).2 source).mp sourceBelow).1
        have lists := plain.sound.wellFormed.lists live above
        refine (plain.sound.parent_of_mem_descendants sourceBelow lists).resolve_left ?_
        rintro rfl
        rw [isParagraph.tag] at isRun
        exact absurd isRun (by decide)
      have left : parent ∉ [source] := by
        rw [List.mem_singleton]
        rintro rfl
        rw [isRun] at isText
        exact absurd isText (by decide)
      have parentLeft : parent ∈ ((document.pushText target (document.text source)).delete
          source).descendants scope := by
        rw [mends.removes.descendants (mends.kept isParagraph), List.mem_filter]
        exact ⟨parentBelow, by simpa using left⟩
      obtain ⟨further, same⟩ := mends_deleteRun mends.plain (mends.isParagraph isParagraph) parentLeft
        bare.1 bare.2
      exact ⟨_, by simp, mends.trans further plain.sound, same.trans own⟩
    · exact ⟨[source], by simp, mends, own⟩

theorem text_takeText (plain : Plain document)
    (neighbours : ownTexts document scope = front ++ target :: source :: back) (id : NodeId) :
    (deleteText (document.pushText target (document.text source)) source).text id =
      if id = target then document.text target ++ document.text source else document.text id := by
  have member : target ∈ ownTexts document scope := by
    rw [neighbours]
    simp
  have live := (((plain.sound.descendants scope).2 target).mp (mem_ownTexts.mp member).1).1
  have sound := (restyles_pushText document target (document.text source)).rewritten.sound plain.sound
  rw [← text_pushText (Document.lt_size_of_isLive live)]
  exact text_deleteText sound source id

/-- A row of texts is taken into the one before it. -/
theorem mends_absorb_texts {taken : List NodeId} (plain : Plain document)
    (isParagraph : IsParagraph document scope)
    (neighbours : ownTexts document scope = front ++ target :: (taken ++ back)) :
    ∃ gone, (taken ≠ [] → gone ≠ []) ∧ Mends scope gone document (absorb document target taken) ∧
      ownTexts (absorb document target taken) scope = front ++ target :: back ∧
      ∀ id, (absorb document target taken).text id =
        if id = target then document.text target ++ String.join (taken.map document.text)
        else document.text id := by
  induction taken generalizing document with
  | nil =>
      refine ⟨[], by simp, .refl scope plain, neighbours, fun id => ?_⟩
      by_cases here : id = target
      · subst here
        simp [absorb]
      · simp [absorb, here]
  | cons source taken ih =>
      obtain ⟨gone, some, mends, own⟩ := mends_takeText plain isParagraph neighbours
      have text := text_takeText plain neighbours
      have same : absorb document target (source :: taken) =
          absorb (deleteText (document.pushText target (document.text source)) source) target taken :=
        rfl
      have nodup := nodup_ownTexts plain.sound scope
      rw [neighbours] at nodup
      rw [same]
      generalize deleteText (document.pushText target (document.text source)) source = next at *
      obtain ⟨more, _, further, ownLast, last⟩ := ih mends.plain (mends.isParagraph isParagraph) own
      refine ⟨gone ++ more, by simp [some], mends.trans further plain.sound, ownLast, fun id => ?_⟩
      have others : taken.map next.text = taken.map document.text := by
        refine List.map_congr_left fun other member => ?_
        rw [text, if_neg]
        rintro rfl
        simp [List.nodup_append, member] at nodup
      rw [last, text, text, others, if_pos rfl, List.map_cons, String.join_cons, String.append_assoc]
      split <;> rfl

theorem mends_preserveSpace (plain : Plain document) (isParagraph : IsParagraph document scope)
    (below : target ∈ document.descendants scope) :
    Mends scope [] document (preserveSpace document target) ∧
      ownTexts (preserveSpace document target) scope = ownTexts document scope := by
  have restyles := restyles_preserveSpace document target
  refine mends_quiet plain (restyles.rewritten.sound plain.sound) restyles.removes (by simp) (by simp)
    isParagraph (text_preserveSpace document target) fun id _ outside => restyles.frame id ?_
  rintro rfl
  exact outside below

theorem mends_takeIn {taken : List NodeId} (plain : Plain document)
    (isParagraph : IsParagraph document scope)
    (neighbours : ownTexts document scope = front ++ target :: (taken ++ back)) :
    ∃ gone, (taken ≠ [] → gone ≠ []) ∧
      Mends scope gone document (preserveSpace (absorb document target taken) target) ∧
      ownTexts (preserveSpace (absorb document target taken) target) scope = front ++ target :: back ∧
      ∀ id, (preserveSpace (absorb document target taken) target).text id =
        if id = target then document.text target ++ String.join (taken.map document.text)
        else document.text id := by
  obtain ⟨gone, removed, mends, own, text⟩ := mends_absorb_texts plain isParagraph neighbours
  have below : target ∈ (absorb document target taken).descendants scope := by
    refine (mem_ownTexts.mp ?_).1
    rw [own]
    simp
  obtain ⟨spaced, ownSpaced⟩ :=
    mends_preserveSpace mends.plain (mends.isParagraph isParagraph) below
  refine ⟨gone, removed, ?_, ownSpaced.trans own, fun id => (text_preserveSpace ..).trans (text id)⟩
  simpa using mends.trans spaced plain.sound

end Taking

/-! Markers that are completed -/

/-- Nothing is cut when the texts leave a marker open, however many of them are added. -/
theorem open_of_cutClosing? {document : Document} {joined : String} {ids : List NodeId}
    (none : cutClosing? document joined ids = none) {taken : List String}
    (front : taken <+: ids.map document.text) (opened : hasOpenMarker joined = true) :
    hasOpenMarker (joined ++ String.join taken) = true := by
  induction ids generalizing joined taken with
  | nil =>
      rw [List.map_nil, List.prefix_nil] at front
      simpa [front] using opened
  | cons id rest ih =>
      rw [cutClosing?] at none
      split at none
      · rename_i still
        rw [Option.map_eq_none_iff] at none
        cases taken with
        | nil => simpa using opened
        | cons text taken =>
            obtain ⟨rfl, behind⟩ := List.cons_prefix_cons.mp front
            rw [String.join_cons, ← String.append_assoc]
            exact ih none behind still
      · simp at none

theorem closed_of_cutClosing? {document : Document} {joined : String} {ids taken after : List NodeId}
    (cut : cutClosing? document joined ids = some (taken, after)) :
    ids = taken ++ after ∧ taken ≠ [] ∧
      hasOpenMarker (joined ++ String.join (taken.map document.text)) = false := by
  induction ids generalizing joined taken with
  | nil => simp [cutClosing?] at cut
  | cons id rest ih =>
      simp only [cutClosing?] at cut
      split at cut
      · obtain ⟨⟨inner, behind⟩, found, same⟩ := Option.map_eq_some_iff.mp cut
        simp only [Prod.mk.injEq] at same
        obtain ⟨rfl, rfl⟩ := same
        obtain ⟨rfl, _, closed⟩ := ih found
        refine ⟨rfl, by simp, ?_⟩
        rwa [List.map_cons, String.join_cons, ← String.append_assoc]
      · rename_i closed
        simp only [Option.some.injEq, Prod.mk.injEq] at cut
        obtain ⟨rfl, rfl⟩ := cut
        exact ⟨rfl, by simp, by simpa using closed⟩

structure Completes (scope : NodeId) (front ids : List NodeId) (first : Document)
    (result : Document × Nat) : Prop where
  mended : Mended scope first result
  kept : ∃ kept, ownTexts result.1 scope = front ++ kept ∧
    Fused (ids.map first.text) (kept.map result.1.text) ∧ Complete (kept.map result.1.text)
  text : ∀ id, id ∉ ids → result.1.text id = first.text id

namespace Completes

variable {document next : Document} {scope id : NodeId} {front taken rest gone : List NodeId}
  {result : Document × Nat}

/-- A text that is not completed by the texts behind it is left as it is. -/
theorem leave (inner : Completes scope (front ++ [id]) rest document result) (distinct : id ∉ rest)
    (uncut : hasOpenMarker (document.text id) = true →
      cutClosing? document (document.text id) rest = none) :
    Completes scope front (id :: rest) document result where
  mended := inner.mended
  kept := by
    obtain ⟨kept, own, fused, complete⟩ := inner.kept
    have same := inner.text id distinct
    refine ⟨id :: kept, by simpa using own, ?_, fun opened taken behind => ?_, complete⟩
    · rw [List.map_cons, List.map_cons, same]
      exact fused.later _
    · rw [same] at opened ⊢
      -- What is left behind the text spells what stood there, so that nothing would be cut there either.
      obtain ⟨origins, behindOrigins, joined⟩ := fused.exists_prefix behind
      rw [← joined]
      exact open_of_cutClosing? (uncut opened) behindOrigins opened
  text := fun other apart => inner.text other fun member => apart (List.mem_cons_of_mem _ member)

/-- A text that is completed takes in some texts behind it, and the rest is gone on with. -/
theorem take (sound : document.Sound) (mends : Mends scope gone document next) (removed : gone ≠ [])
    (some : taken ≠ []) (distinct : id ∉ taken ++ rest)
    (text : ∀ other, next.text other =
      if other = id then document.text id ++ String.join (taken.map document.text)
      else document.text other)
    (closed : hasOpenMarker (document.text id ++ String.join (taken.map document.text)) = false)
    (inner : Completes scope (front ++ [id]) rest next result) :
    Completes scope front (id :: (taken ++ rest)) document (result.1, taken.length + result.2) where
  mended := .trans (.of_mends mends removed (by simpa using some)) inner.mended sound
  kept := by
    rw [List.mem_append, not_or] at distinct
    obtain ⟨kept, own, fused, complete⟩ := inner.kept
    have joined := inner.text id distinct.2
    rw [text, if_pos rfl] at joined
    have untouched : rest.map next.text = rest.map document.text := by
      refine List.map_congr_left fun other member => ?_
      rw [text, if_neg]
      rintro rfl
      exact distinct.2 member
    refine ⟨id :: kept, by simpa using own, ?_, fun opened => ?_, complete⟩
    · rw [untouched] at fused
      rw [List.map_cons, List.map_cons, joined, List.map_append]
      exact ((Fused.single _ _).append_right _).trans (fused.later _)
    · rw [joined, closed] at opened
      exact absurd opened (by decide)
  text := fun other apart => by
    rw [List.mem_cons, List.mem_append, not_or, not_or] at apart
    rw [inner.text other apart.2.2, text, if_neg apart.1]

end Completes

theorem completes_completeMarkers {document : Document} (plain : Plain document) {scope : NodeId}
    (isParagraph : IsParagraph document scope) {front ids : List NodeId}
    (own : ownTexts document scope = front ++ ids) :
    Completes scope front ids document (completeMarkers document ids) := by
  induction size : ids.length using Nat.strongRecOn generalizing document front ids with
  | ind length ih =>
      cases ids with
      | nil =>
          rw [completeMarkers]
          exact ⟨.unchanged scope plain, ⟨[], own, .refl, trivial⟩, fun _ _ => rfl⟩
      | cons id rest =>
          have nodup := nodup_ownTexts plain.sound scope
          rw [own] at nodup
          have distinct : id ∉ rest := (List.nodup_cons.mp (List.nodup_append.mp nodup).2.1).1
          rw [completeMarkers]
          split
          · rename_i taken after cut
            have closing : cutClosing? document (document.text id) rest = some (taken, after) := by
              split at cut
              · exact cut
              · simp at cut
            obtain ⟨rfl, some, closed⟩ := closed_of_cutClosing? closing
            obtain ⟨gone, removed, mends, ownNext, text⟩ := mends_takeIn plain isParagraph own
            rw [← List.singleton_append, ← List.append_assoc] at ownNext
            have inner := ih after.length (by simp at size; omega) mends.plain
              (mends.isParagraph isParagraph) ownNext rfl
            exact .take plain.sound mends (removed some) some distinct text closed inner
          · rename_i uncut
            have further : ownTexts document scope = (front ++ [id]) ++ rest := by simpa using own
            have inner := ih rest.length (by simp at size; omega) plain isParagraph further rfl
            exact inner.leave distinct fun opened => by rwa [if_pos opened] at uncut

end WordTemplate.Wordml
