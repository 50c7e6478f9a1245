import WordTemplate.Proofs.Wordml.Repaired
import WordTemplate.Proofs.Wordml.Taking

/-! What a repair leaves. All paragraphs stay and say what they said. The texts that are taken in go, with
the runs that are left empty, and no attribute changes but the one that keeps blanks. -/

namespace WordTemplate.Wordml

open Markup

/-- A text of a paragraph is not there any more. -/
def Absorbed (first second : Document) (id : NodeId) : Prop :=
  ∃ scope ∈ paragraphsFrom first first.root, id ∈ ownTexts first scope ∧ id ∉ ownTexts second scope

section Stages

variable {first second : Document} {paragraphs taken gone : List NodeId}

theorem Takes.ownTexts_subset (takes : Takes paragraphs taken gone first second) (sound : first.Sound)
    {scope : NodeId} (live : second.isLive scope = true) : ownTexts second scope ⊆ ownTexts first scope := by
  rw [ownTexts_removes takes.removes sound (takes.kept live)]
  exact List.filter_subset_self _

theorem Takes.isLive_paragraph (takes : Takes paragraphs taken gone first second) (plain : Plain first)
    {id : NodeId} (isParagraph : IsParagraph first id) : second.isLive id = true := by
  by_cases lost : id ∈ gone
  · exfalso
    have tag := isParagraph.tag
    rcases takes.goes id lost with member | ⟨run, emptied, rfl | ⟨properties, _, isProperties, place⟩⟩
    · rw [takes.tag_of_taken member] at tag
      exact absurd tag (by decide)
    · rw [emptied.tag] at tag
      exact absurd tag (by decide)
    · rcases List.mem_cons.mp place with rfl | below
      · rw [isProperties] at tag
        exact absurd tag (by decide)
      · exact (plain.properties properties isProperties id below).2 tag
  · rw [takes.removes.live id lost]
    exact isParagraph.live

theorem Takes.eachParagraph {change : Document → NodeId → Document × Nat}
    (step : ∀ {second taken gone id}, Takes paragraphs taken gone first second → id ∈ paragraphs →
      second.isLive id = true → ∃ more lost, Takes paragraphs more lost first (change second id).1)
    (takes : Takes paragraphs taken gone first second) {scope : NodeId}
    (inside : ∀ id ∈ paragraphsFrom second scope, id ∈ paragraphs) :
    ∃ more lost, Takes paragraphs more lost first (eachParagraph change second scope).1 := by
  refine List.foldlRecOn (motive := fun state : Document × Nat =>
    ∃ more lost, Takes paragraphs more lost first state.1) _ _ ⟨taken, gone, takes⟩ ?_
  rintro ⟨document, total⟩ ⟨more, lost, whole⟩ id member
  dsimp only
  split
  · exact step whole (inside id member) ‹_›
  · exact ⟨more, lost, whole⟩

end Stages

section Repair

variable {document : Document} (plain : Plain document) (live : document.isLive document.root = true)
include plain live

theorem takes_repairRuns : ∃ taken gone,
    Takes (paragraphsFrom document document.root) taken gone document (repairRuns document) := by
  have isParagraph : ∀ id ∈ paragraphsFrom document document.root, IsParagraph document id :=
    fun id member => isParagraph_of_mem plain.sound live member
  refine List.foldlRecOn (motive := fun second : Document => ∃ taken gone,
    Takes (paragraphsFrom document document.root) taken gone document second) _ _
    ⟨[], [], .start _ plain.sound⟩ ?_
  rintro second ⟨taken, gone, takes⟩ id member
  split
  · have inner : ∀ {third : Document} {taken gone : List NodeId},
        Takes (paragraphsFrom document document.root) taken gone document third →
        ∀ other ∈ paragraphsFrom third id, other ∈ paragraphsFrom document document.root := by
      intro third taken gone takes other listed
      obtain ⟨place, tag⟩ := mem_paragraphsFrom.mp listed
      refine mem_paragraphsFrom.mpr ⟨?_, takes.removes.tag other ▸ tag⟩
      have outer := (mem_paragraphsFrom.mp member).1
      rcases place with rfl | below
      · exact outer
      · have deeper := takes.descendants_first (takes.isLive_paragraph plain (isParagraph id member)) below
        rcases outer with rfl | outer
        · exact .inr deeper
        · exact .inr (plain.sound.descendants_subset outer (List.mem_cons_of_mem _ deeper))
    obtain ⟨more, lost, joined⟩ := takes.eachParagraph (fun takes inside _ => by
      obtain ⟨more, lost, whole⟩ := takes.joinRuns plain inside (isParagraph _ inside)
        (fun _ none => absurd none (Option.not_mem_none _)) fun child lists => takes.lists_first lists
      exact ⟨_, _, whole⟩) (inner takes)
    refine joined.eachParagraph (fun takes inside live => ?_) (inner joined)
    obtain ⟨more, lost, whole, _⟩ := takes.completeMarkers plain.sound plain.texts inside
      (takes.ownTexts_subset plain.sound live) (nodup_ownTexts takes.sound _)
    exact ⟨_, _, whole⟩
  · exact ⟨taken, gone, takes⟩

end Repair

/-- A repair keeps the paragraphs and what they say. The texts of each of them fall into groups, of which the
first text takes in the others. What goes are these texts, runs, and what stands in the properties of a run
that goes; a run goes only if all it lists are properties, texts taken in and runs that go. What is left
keeps its attributes, except that texts may be told to keep blanks. -/
theorem remains_repairRuns {source : String} {document : Document}
    (read : Document.parse source = .ok document) (flat : Flat document) :
    paragraphsFrom (repairRuns document) (repairRuns document).root =
        paragraphsFrom document document.root ∧
      (∀ scope ∈ paragraphsFrom document document.root,
        String.join (readings (repairRuns document) scope) = String.join (readings document scope) ∧
        ∃ groups : List (Group NodeId),
          quoted document scope = (groups.flatMap fun group => group.1 :: group.2) ∧
          quoted (repairRuns document) scope = groups.map Group.whole) ∧
      (∀ id, document.isLive id = true → (repairRuns document).isLive id = false →
        Absorbed document (repairRuns document) id ∨
          ∃ run, document.tag run = Wordml.run ∧ (repairRuns document).isLive run = false ∧
            (id = run ∨ InProperties document run id)) ∧
      (∀ id, document.isLive id = true → (repairRuns document).isLive id = false →
        document.tag id = run →
        (∃ outer, document.tag outer = run ∧ (repairRuns document).isLive outer = false ∧
          InProperties document outer id) ∨
        ∀ child, document.Lists id child →
          document.tag child = runProperties ∨ Absorbed document (repairRuns document) child ∨
            document.tag child = run ∧ (repairRuns document).isLive child = false) ∧
      ∀ id, ((repairRuns document).node id).attributes = (document.node id).attributes ∨
        document.tag id = text ∧
          Respaced (document.node id).toElement ((repairRuns document).node id).toElement := by
  have plain := plain_of_parse read flat
  have live := Document.isLive_root_of_parse read
  obtain ⟨gone, mends⟩ := (repaired_repairRuns plain live).mends
  obtain ⟨taken, lost, takes⟩ := takes_repairRuns plain live
  generalize repairRuns document = second at *
  have absorbed : ∀ id ∈ taken, Absorbed document second id := by
    intro id member
    obtain ⟨away, scope, inside, own⟩ := takes.owned id member
    refine ⟨scope, inside, own, fun still => ?_⟩
    have alive := (((mends.plain.sound.descendants scope).2 id).mp (mem_ownTexts.mp still).1).1
    exact takes.kept alive away
  have away : ∀ id, document.isLive id = true → second.isLive id = false → id ∈ lost := by
    intro id before after
    by_contra left
    rw [takes.removes.live id left, before] at after
    exact absurd after (by decide)
  refine ⟨?_, fun scope member => ?_, fun id before after => ?_, fun id before after isRun => ?_,
    fun id => ?_⟩
  · rw [mends.removes.root]
    exact mends.paragraphsFrom_eq (mends.scope_kept plain.sound)
  · have isParagraph := isParagraph_of_mem plain.sound live member
    obtain ⟨groups, whole, all⟩ := (mends.gathered scope isParagraph).exists_groups
    exact ⟨(mends.fused scope isParagraph).join_eq, groups, all, whole⟩
  · refine (takes.goes id (away id before after)).imp (absorbed id) ?_
    rintro ⟨run, emptied, place⟩
    exact ⟨run, emptied.tag, takes.removes.dead run emptied.lost, place⟩
  · rcases takes.goes id (away id before after) with member | ⟨run, emptied, rfl | inside⟩
    · rw [takes.tag_of_taken member] at isRun
      exact absurd isRun (by decide)
    · refine .inr fun child lists => ?_
      rcases emptied.rest child lists with member | isProperties | ⟨gone, tag⟩
      · exact .inr (.inl (absorbed child member))
      · exact .inl isProperties
      · exact .inr (.inr ⟨tag, takes.removes.dead child gone⟩)
    · exact .inl ⟨run, emptied.tag, takes.removes.dead run emptied.lost, inside⟩
  · rcases takes.styled id with same | ⟨⟨scope, _, own⟩, respaced⟩
    · exact .inl (congrArg Element.attributes same)
    · exact .inr ⟨(mem_ownTexts.mp own).2.1, respaced⟩

/-- The marker of the two runs is put together in the first one, and the second run goes. -/
theorem remains_repairRuns_split :
    quoted (repairRuns splitMarker) 0 = [(4, "\x7b\x7bName\x7d\x7d")] ∧
      (repairRuns splitMarker).isLive 5 = false ∧
      ∃ groups : List (Group NodeId), groups.map Group.whole = [(4, "\x7b\x7bName\x7d\x7d")] ∧
        (groups.flatMap fun group => group.1 :: group.2) =
          [(4, "\x7b\x7bNa"), (6, "me\x7d\x7d")] := by
  obtain ⟨_, said, _⟩ := remains_repairRuns parse_splitText flat_splitMarker
  obtain ⟨_, groups, all, whole⟩ := said 0 (by decide +kernel)
  have left : quoted (repairRuns splitMarker) 0 = [(4, "\x7b\x7bName\x7d\x7d")] := by decide +kernel
  exact ⟨left, by decide +kernel, groups, whole.symm.trans left, all.symm.trans (by decide +kernel)⟩

def nestedRuns : Document :=
  .ofTree false <| .node { tag := paragraph }
    [.node { tag := run } [.node { tag := text, text := "\x7b\x7b" } []],
      .node { tag := run } [.node { tag := run } [.node { tag := text, text := "a" } []],
        .node { tag := text, text := "\x7d\x7d" } []]]

def nestedRunsText : String :=
  "<w:p><w:r><w:t>\x7b\x7b</w:t></w:r><w:r><w:r><w:t>a</w:t></w:r><w:t>\x7d\x7d</w:t></w:r></w:p>"

/-- A run goes that held another run. -/
theorem repairRuns_nestedRuns :
    Document.parse nestedRunsText = .ok nestedRuns ∧ Flat nestedRuns ∧
      nestedRuns.isLive 3 = true ∧ nestedRuns.tag 3 = run ∧ (repairRuns nestedRuns).isLive 3 = false ∧
      4 ∈ nestedRuns.children 3 ∧ nestedRuns.tag 4 ≠ runProperties ∧ nestedRuns.tag 4 ≠ text :=
  ⟨by cbv, flat_of_lt_size (by decide +kernel) (by decide +kernel), by decide +kernel, by decide +kernel,
    by decide +kernel, by decide +kernel, by decide +kernel, by decide +kernel⟩

end WordTemplate.Wordml
