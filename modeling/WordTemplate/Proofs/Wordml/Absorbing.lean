import WordTemplate.Proofs.Wordml.Brackets
import WordTemplate.Proofs.Wordml.Repaired
import WordTemplate.Proofs.Wordml.Taking

/-! Why texts are taken into others. A text is only taken in where double braces stand on both sides of its
start, or a brace at the end of the texts before it may be the first of two. All other texts stay in their
runs, with the properties they had. -/

namespace WordTemplate.Wordml

open Markup

section Spelled

variable {document : Document}

/-- What texts say one after another. -/
def spelled (document : Document) (ids : List NodeId) : List Char :=
  (String.join (ids.map document.text)).toList

theorem spelled_append (front back : List NodeId) :
    spelled document (front ++ back) = spelled document front ++ spelled document back := by
  rw [spelled, List.map_append, String.join_append, String.toList_append]
  rfl

theorem hasOpenMarker_spelled (id : NodeId) (ids : List NodeId) :
    hasOpenMarker (document.text id ++ String.join (ids.map document.text)) =
      opensFrom 0 (spelled document (id :: ids)) := by
  rw [hasOpenMarker, spelled, List.map_cons, String.join_cons]

theorem opened_of_cutClosing? {joined : String} {ids front back after : List NodeId}
    (cut : cutClosing? document joined ids = some (front ++ back, after)) (some : back ≠ [])
    (opened : hasOpenMarker joined = true) :
    hasOpenMarker (joined ++ String.join (front.map document.text)) = true := by
  induction ids generalizing joined front with
  | nil => simp [cutClosing?] at cut
  | cons id rest ih =>
      cases front with
      | nil => simpa using opened
      | cons first front =>
          simp only [cutClosing?] at cut
          split at cut
          · rename_i still
            obtain ⟨⟨inner, behind⟩, found, same⟩ := Option.map_eq_some_iff.mp cut
            simp only [List.cons_append, Prod.mk.injEq, List.cons.injEq] at same
            obtain ⟨⟨rfl, rfl⟩, rfl⟩ := same
            rw [List.map_cons, String.join_cons, ← String.append_assoc]
            exact ih found still
          · simp only [List.cons_append, Option.some.injEq, Prod.mk.injEq, List.cons.injEq,
              List.nil_eq, List.append_eq_nil_iff] at cut
            exact absurd cut.1.2.2 some

end Spelled

/-- A text is bound to the ones before it: double braces that belong together stand on both sides of its
start. Or some texts before it leave nothing open but a brace at their end, which no other one follows. -/
def Bound (document : Document) (ids : List NodeId) (id : NodeId) : Prop :=
  ∃ front back, ids = front ++ id :: back ∧
    (Covered Bracketed (spelled document front) (spelled document (id :: back)) ∨
      ∃ last, last <:+ front ∧ Dangles (spelled document last) (spelled document (id :: back)))

theorem Bound.behind {document : Document} {ids : List NodeId} {id : NodeId} (more : List NodeId)
    (bound : Bound document ids id) : Bound document (more ++ ids) id := by
  obtain ⟨front, back, rfl, held⟩ := bound
  refine ⟨more ++ front, back, (List.append_assoc ..).symm, held.imp ?_ ?_⟩
  · rw [spelled_append]
    exact Covered.behind _
  · exact Exists.imp fun last both => ⟨both.1.trans (List.suffix_append ..), both.2⟩

theorem TakenIn.bound {document : Document} {ids taken : List NodeId} (takenIn : TakenIn document ids taken)
    {id : NodeId} (member : id ∈ taken) : Bound document ids id := by
  induction takenIn with
  | nil => exact absurd member List.not_mem_nil
  | skips _ ih => exact (ih member).behind [_]
  | @closes opener rest taken after more opened cut _ ih =>
      obtain ⟨rfl, _, closed⟩ := closed_of_cutClosing? cut
      rcases List.mem_append.mp member with here | later
      · obtain ⟨between, behind, rfl⟩ := List.append_of_mem here
        have open_ := opened_of_cutClosing? cut (by simp) opened
        rw [hasOpenMarker_spelled] at open_ closed
        rw [← List.cons_append, spelled_append] at closed
        have whole : spelled document (id :: (behind ++ after)) =
            spelled document (id :: behind) ++ spelled document after := spelled_append (id :: behind) after
        refine ⟨opener :: between, behind ++ after, by simp, ?_⟩
        rw [whole]
        refine (covered_or_dangles open_ closed).imp (·.append _) fun dangles => ?_
        refine ⟨_, List.suffix_refl _, dangles.append ?_ _⟩
        intro nothing
        rw [nothing, List.append_nil, open_] at closed
        exact absurd closed (by decide)
      · simpa using (ih later).behind (opener :: taken)

namespace Takes

variable {first second : Document} {paragraphs taken gone : List NodeId}

theorem exists_closest? (takes : Takes paragraphs taken gone first second) (sound : first.Sound)
    {run : NodeId} (emptied : Emptied first taken gone run) :
    ∃ scope ∈ paragraphs, first.closest? run [paragraph] = some scope := by
  obtain ⟨source, member, lists⟩ := emptied.source
  obtain ⟨_, scope, inside, own⟩ := takes.owned source member
  obtain ⟨_, isText, above⟩ := mem_ownTexts.mp own
  rw [sound.closest?_eq (sound.wellFormed.child_live lists), sound.wellFormed.above lists,
    if_neg (by simp [Document.isAny, isText, text, paragraph])] at above
  exact ⟨scope, inside, above⟩

/-- The other paragraphs that are left keep their texts. -/
theorem ownTexts_eq (takes : Takes paragraphs taken gone first second) (sound : first.Sound)
    {scope : NodeId} (isParagraph : first.tag scope = paragraph) (live : second.isLive scope = true)
    (other : scope ∉ paragraphs) : ownTexts second scope = ownTexts first scope := by
  rw [ownTexts_removes takes.removes sound (takes.kept live), List.filter_eq_self]
  intro id own
  rw [decide_eq_true_eq]
  intro lost
  obtain ⟨below, isText, above⟩ := mem_ownTexts.mp own
  rcases takes.goes id lost with member | ⟨run, emptied, rfl | ⟨properties, inRun, isProperties, place⟩⟩
  · obtain ⟨_, outer, inside, ownOuter⟩ := takes.owned id member
    exact other (eq_of_mem_ownTexts own ownOuter ▸ inside)
  · rw [emptied.tag] at isText
    exact absurd isText (by decide)
  · have inProperties : id ∈ first.descendants properties := by
      refine (List.mem_cons.mp place).resolve_left ?_
      rintro rfl
      rw [isText] at isProperties
      exact absurd isProperties (by decide)
    have lostProperties := takes.removes.below run emptied.lost properties inRun
    -- The paragraph does not stand in the properties, so the run stands in the paragraph.
    have inScope : properties ∈ first.descendants scope := by
      rcases sound.comparable (.inr inProperties) (.inr below) with rfl | inside | inside
      · rw [isParagraph] at isProperties
        exact absurd isProperties (by decide)
      · exact inside
      · exact absurd (takes.mem_gone_of_below sound lostProperties inside) (takes.kept live)
    have runInScope : run ∈ first.descendants scope := by
      refine (sound.parent_of_mem_descendants inScope inRun).resolve_left ?_
      rintro rfl
      rw [emptied.tag] at isParagraph
      exact absurd isParagraph (by decide)
    have inRun : id ∈ first.descendants run :=
      sound.mem_descendants_iff.mpr ⟨properties, inRun, .inr inProperties⟩
    obtain ⟨outer, inside, closest⟩ := takes.exists_closest? sound emptied
    rw [sound.closest?_between above runInScope inRun, Option.some.injEq] at closest
    exact other (closest ▸ inside)

theorem text_eq (takes : Takes paragraphs taken gone first second) {scope : NodeId}
    (other : scope ∉ paragraphs) {id : NodeId} (own : id ∈ ownTexts first scope) :
    second.text id = first.text id := by
  rcases takes.styled id with same | ⟨⟨outer, inside, ownOuter⟩, _⟩
  · exact congrArg Element.text same
  · exact absurd (eq_of_mem_ownTexts own ownOuter ▸ inside) other

theorem kept_properties (takes : Takes paragraphs taken gone first second) (sound : first.Sound)
    {holder properties : NodeId} (left : holder ∉ gone) (lists : first.Lists holder properties)
    (isProperties : first.tag properties = runProperties)
    (bare : ∀ id ∈ first.descendants properties, first.tag id ≠ text) :
    ∀ id ∈ properties :: first.descendants properties, id ∉ gone := by
  intro id member lost
  have others : ∀ other ∈ properties :: first.descendants properties, first.tag other ≠ text := by
    rw [List.forall_mem_cons, isProperties]
    exact ⟨by decide, bare⟩
  have noRun : ∀ run, Emptied first taken gone run → run ∉ properties :: first.descendants properties := by
    intro run emptied inside
    obtain ⟨source, wasTaken, listed⟩ := emptied.source
    have below := sound.mem_descendants (List.mem_cons.mp inside) listed
    exact bare source below (takes.tag_of_taken wasTaken)
  rcases takes.goes id lost with wasTaken | ⟨run, emptied, rfl | ⟨other, inRun, _, place⟩⟩
  · exact others id member (takes.tag_of_taken wasTaken)
  · exact noRun id emptied member
  · rcases sound.comparable (List.mem_cons.mp member) (List.mem_cons.mp place) with rfl | inside | inside
    · have same := (sound.wellFormed.above lists).symm.trans (sound.wellFormed.above inRun)
      exact left (Option.some.inj same ▸ emptied.lost)
    · have lostOther := takes.removes.below run emptied.lost other inRun
      rcases sound.parent_of_mem_descendants inside lists with rfl | deeper
      · exact left lostOther
      · exact left (takes.mem_gone_of_below sound lostOther deeper)
    · exact noRun run emptied (List.mem_cons.mpr (sound.parent_of_mem_descendants inside inRun))

theorem writtenProperties (takes : Takes paragraphs taken gone first second) (sound : first.Sound)
    {holder : NodeId} (left : holder ∉ gone)
    (bare : ∀ id, InProperties first holder id → first.tag id ≠ text) :
    writtenProperties second holder = writtenProperties first holder := by
  have kept : ∀ properties, first.Lists holder properties → first.tag properties = runProperties →
      ∀ id ∈ properties :: first.descendants properties, id ∉ gone := by
    intro properties lists tag
    refine takes.kept_properties sound left lists tag fun id below => bare id ?_
    exact ⟨properties, lists, tag, List.mem_cons_of_mem _ below⟩
  rw [Wordml.writtenProperties, Wordml.writtenProperties,
    takes.removes.childByTag? left fun child lists tag => kept child lists tag child (List.mem_cons_self ..)]
  split
  · rename_i properties found
    have lists := List.mem_of_find?_eq_some found
    have tag : first.tag properties = runProperties := by simpa using List.find?_some found
    refine takes.removes.writeNode sound (kept properties lists tag) fun id member => ?_
    rcases takes.styled id with same | ⟨⟨scope, _, own⟩, _⟩
    · exact same
    · exact absurd (mem_ownTexts.mp own).2.1 (bare id ⟨properties, lists, tag, member⟩)
  · rfl

end Takes

/-- The markers of some paragraphs were completed, and each text that was taken in is bound to those before
it in its paragraph. -/
structure Completed (paragraphs taken gone : List NodeId) (first second : Document) : Prop
    extends Takes paragraphs taken gone first second where
  nodup : taken.Nodup
  bound : ∀ id ∈ taken, ∃ scope ∈ paragraphs, Bound first (ownTexts first scope) id

namespace Completed

variable {first second : Document} {paragraphs taken gone : List NodeId}

theorem widen (completed : Completed paragraphs taken gone first second) {more : List NodeId}
    (inside : paragraphs ⊆ more) : Completed more taken gone first second where
  toTakes := completed.toTakes.widen inside
  nodup := completed.nodup
  bound := fun id member => (completed.bound id member).imp fun _ both => ⟨inside both.1, both.2⟩

/-- The markers of one more paragraph are completed. -/
theorem step (completed : Completed paragraphs taken gone first second) (sound : first.Sound)
    (bare : ∀ id, first.tag id = text → first.children id = []) {scope : NodeId}
    (isParagraph : first.tag scope = paragraph) (live : second.isLive scope = true)
    (other : scope ∉ paragraphs) :
    ∃ more lost, Completed (scope :: paragraphs) (taken ++ more) (gone ++ lost) first
        (completeMarkers second (ownTexts second scope)).1 ∧
      (completeMarkers second (ownTexts second scope)).2 = more.length := by
  have nodup := nodup_ownTexts sound scope
  rw [completed.ownTexts_eq sound isParagraph live other]
  obtain ⟨more, lost, takes, count, takenIn⟩ :=
    (completed.toTakes.widen (List.subset_cons_self scope _)).completeMarkers sound bare
      (List.mem_cons_self ..) (fun _ member => member) nodup
  have taken' := takenIn.congr fun id own => completed.text_eq other own
  refine ⟨more, lost, ⟨takes, ?_, fun id member => ?_⟩, count⟩
  · refine List.nodup_append.mpr ⟨completed.nodup, takenIn.sublist.nodup nodup, ?_⟩
    rintro id early _ late rfl
    obtain ⟨_, outer, inside, own⟩ := completed.owned id early
    exact other (eq_of_mem_ownTexts own (takenIn.sublist.subset late) ▸ inside)
  · rcases List.mem_append.mp member with early | late
    · exact (completed.widen (List.subset_cons_self scope _)).bound id early
    · exact ⟨scope, List.mem_cons_self .., taken'.bound late⟩

theorem foldl (sound : first.Sound) (bare : ∀ id, first.tag id = text → first.children id = [])
    {ids : List NodeId} (nodup : ids.Nodup) (tags : ∀ id ∈ ids, first.tag id = paragraph)
    (completed : Completed paragraphs taken gone first second) (others : ∀ id ∈ ids, id ∉ paragraphs) :
    let result := ids.foldl (fun (document, total) id =>
      if document.isLive id then
        let (document, count) := completeMarkers document (ownTexts document id)
        (document, total + count)
      else (document, total)) (second, taken.length)
    ∃ all lost, Completed (ids.reverse ++ paragraphs) all lost first result.1 ∧ result.2 = all.length := by
  induction ids generalizing second paragraphs taken gone with
  | nil => exact ⟨taken, gone, completed, rfl⟩
  | cons id rest ih =>
      rw [List.nodup_cons] at nodup
      rw [List.forall_mem_cons] at tags others
      have later : ∀ other ∈ rest, other ∉ id :: paragraphs := by
        intro other member
        rw [List.mem_cons, not_or]
        exact ⟨fun same => nodup.1 (same ▸ member), others.2 other member⟩
      rw [List.foldl_cons, List.reverse_cons, List.append_assoc]
      dsimp only
      split
      · obtain ⟨more, lost, further, count⟩ := completed.step sound bare tags.1 ‹_› others.1
        rw [count, ← List.length_append]
        exact ih nodup.2 tags.2 further later
      · exact ih nodup.2 tags.2 (completed.widen (List.subset_cons_self id _)) later

end Completed

/-- A text stays in its run, and the run keeps its properties, if no texts stand in them. -/
structure Spared (first second : Document) (id : NodeId) : Prop where
  live : second.isLive id = true
  parent : second.parent? id = first.parent? id
  closest : second.closest? id [run] = first.closest? id [run]
  properties : ∀ holder, first.closest? id [run] = some holder →
    (∀ other, InProperties first holder other → first.tag other ≠ text) →
    writtenProperties second holder = writtenProperties first holder

/-- Completing markers takes in texts that are bound to those before them. All other texts stay in their runs,
unless they stand in the properties of a run that goes. -/
theorem bound_mergeBrokenMarkers {source : String} {document : Document}
    (read : Document.parse source = .ok document)
    (bare : ∀ id, document.tag id = text → document.children id = []) (scope : NodeId) :
    ∃ taken : List NodeId, taken.Nodup ∧ (mergeBrokenMarkers document scope).2 = taken.length ∧
      (∀ id ∈ taken, (mergeBrokenMarkers document scope).1.isLive id = false ∧
        ∃ paragraph ∈ paragraphsFrom document scope, Bound document (ownTexts document paragraph) id) ∧
      ∀ id, document.isLive id = true → document.tag id = text → id ∉ taken →
        (∀ run, InProperties document run id → (mergeBrokenMarkers document scope).1.isLive run = true) →
        Spared document (mergeBrokenMarkers document scope).1 id := by
  have sound := (Document.Opened.parse read).sound
  have start : Completed [] [] [] document document := ⟨.start [] sound, List.nodup_nil, by simp⟩
  obtain ⟨taken, gone, completed, count⟩ := start.foldl sound bare (nodup_paragraphsFrom sound scope)
    (fun id member => (mem_paragraphsFrom.mp member).2) (fun _ _ => List.not_mem_nil)
  rw [List.append_nil] at completed
  refine ⟨taken, completed.nodup, count, fun id member => ?_, fun id live isText left others => ?_⟩
  · obtain ⟨paragraph, inside, bound⟩ := completed.bound id member
    have dead := completed.removes.dead id (completed.owned id member).1
    exact ⟨dead, paragraph, List.mem_reverse.mp inside, bound⟩
  · have kept : id ∉ gone := by
      intro lost
      rcases completed.goes id lost with member | ⟨run, emptied, rfl | inProperties⟩
      · exact left member
      · rw [emptied.tag] at isText
        exact absurd isText (by decide)
      · exact completed.kept (others run inProperties) emptied.lost
    refine ⟨(completed.removes.live id kept).trans live, completed.removes.parent id kept,
      completed.removes.closest? sound live kept _, fun holder above => ?_⟩
    refine completed.writtenProperties sound fun lost => kept ?_
    rcases (sound.below_of_closest? live above).2.2 with rfl | below
    · exact lost
    · exact completed.mem_gone_of_below sound lost below

/-- The end of the marker is taken in, and the bold text behind it stays. -/
theorem bound_mergeBrokenMarkers_bold :
    (mergeBrokenMarkers splitBeforeBold 0).2 = 1 ∧
      (∃ id, (mergeBrokenMarkers splitBeforeBold 0).1.isLive id = false ∧
        Bound splitBeforeBold [4, 6, 10] id) ∧
      Spared splitBeforeBold (mergeBrokenMarkers splitBeforeBold 0).1 10 := by
  have read : Document.parse splitBeforeBoldText = .ok splitBeforeBold := by cbv
  obtain ⟨taken, _, count, dead, others⟩ :=
    bound_mergeBrokenMarkers read (bare_of_lt_size (by decide +kernel)) 0
  have one : (mergeBrokenMarkers splitBeforeBold 0).2 = 1 := by decide +kernel
  have live : (mergeBrokenMarkers splitBeforeBold 0).1.isLive 10 = true := by decide +kernel
  refine ⟨one, ?_, others 10 (by decide +kernel) (by decide +kernel) ?_ ?_⟩
  · obtain ⟨id, rfl⟩ := List.length_eq_one_iff.mp (count.symm.trans one)
    obtain ⟨away, paragraph, inside, bound⟩ := dead id (List.mem_singleton_self id)
    have listed : paragraphsFrom splitBeforeBold 0 = [0] := by decide +kernel
    rw [listed, List.mem_singleton] at inside
    have own : ownTexts splitBeforeBold 0 = [4, 6, 10] := by decide +kernel
    rw [inside, own] at bound
    exact ⟨id, away, bound⟩
  · intro member
    rw [(dead 10 member).1] at live
    exact absurd live (by decide)
  · rintro run ⟨properties, _, tag, place⟩
    have none : ∀ id < splitBeforeBold.size, splitBeforeBold.tag id = runProperties →
        10 ∉ id :: splitBeforeBold.descendants id := by decide +kernel
    exact absurd place (none properties (lt_size_of_tag (tag ▸ by decide)) tag)

/-- Double braces in double braces, and texts in the properties of the last two runs. -/
def nestedMarkers : Document :=
  .ofTree false <| .node { tag := paragraph }
    [.node { tag := run } [.node { tag := text, text := "\x7b\x7b" } []], boldRun "\x7b\x7ba\x7d\x7d",
      .node { tag := run } [.node { tag := text, text := "\x7d\x7d" } [],
        .node { tag := runProperties } [.node { tag := text, text := "x" } []]],
      .node { tag := run } [.node { tag := runProperties } [.node { tag := text, text := "\x7b\x7b" } []],
        .node { tag := text, text := "\x7d\x7d" } [], .node { tag := text, text := "z" } []]]

def nestedMarkersText : String :=
  "<w:p><w:r><w:t>\x7b\x7b</w:t></w:r><w:r><w:rPr><w:b/></w:rPr><w:t>\x7b\x7ba\x7d\x7d</w:t></w:r><w:r><w:t>\x7d\x7d</w:t><w:rPr><w:t>x</w:t></w:rPr></w:r><w:r><w:rPr><w:t>\x7b\x7b</w:t></w:rPr><w:t>\x7d\x7d</w:t><w:t>z</w:t></w:r></w:p>"

/-- The text of the bold run is taken in although no marker begins before it. Another text goes with the
properties it stands in, and where a text in properties takes something in, the properties of the run change. -/
theorem mergeBrokenMarkers_nestedMarkers :
    Document.parse nestedMarkersText = .ok nestedMarkers ∧
      (∀ id, nestedMarkers.tag id = text → nestedMarkers.children id = []) ∧
      ownTexts nestedMarkers 0 = [2, 6, 8, 10, 13, 14, 15] ∧
      readings (mergeBrokenMarkers nestedMarkers 0).1 0 =
        ["\x7b\x7b\x7b\x7ba\x7d\x7d\x7d\x7d", "\x7b\x7b\x7d\x7d", "z"] ∧
      (mergeBrokenMarkers nestedMarkers 0).1.isLive 6 = false ∧
      ¬ Covered IsMarker (spelled nestedMarkers [2]) (spelled nestedMarkers [6, 8, 10, 13, 14, 15]) ∧
      nestedMarkers.text 10 = "x" ∧ (mergeBrokenMarkers nestedMarkers 0).1.isLive 10 = false ∧
      nestedMarkers.closest? 15 [run] = some 11 ∧
      writtenProperties (mergeBrokenMarkers nestedMarkers 0).1 11 ≠ writtenProperties nestedMarkers 11 :=
  ⟨by cbv, bare_of_lt_size (by decide +kernel), by decide +kernel, by decide +kernel, by decide +kernel,
    not_covered_isMarker (by decide +kernel), by decide +kernel, by decide +kernel, by decide +kernel,
    by decide +kernel⟩

end WordTemplate.Wordml
