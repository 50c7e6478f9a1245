import WordTemplate.Proofs.Filling.SplitRuns
import WordTemplate.Proofs.Filling.UprightPasses
import WordTemplate.Proofs.Markup.Walks

/-! Filling a document without any bound on the steps: the walks of all passes, the expansion of rows and
the splitting at line feeds come to an end by themselves. -/

namespace WordTemplate.Filling

open Markup
open Document (Walks Modest)
open Wordml (Upright Upholds)

variable {params : Params} {document : Document}

section Visits

theorem modest_expandVisited : Modest (expandVisited params) := by
  intro outer before after parent outline document own holds
  obtain ⟨count, copies⟩ := own
  by_cases settled : listsOfRow params (inRow document (.under outer before after parent))
      (outline.toTree document) = []
  · rw [expandVisited_of_settled holds settled]
    exact .inl holds
  · obtain ⟨expanded, more, visited, held, -, -⟩ := expandVisited_of_due holds settled count copies
    rw [visited]
    exact .inr ⟨.inl rfl, more, held⟩

theorem fillText_modest {outer : Context} {before after : List Outline} {parent : NodeId}
    {outline : Outline} (holds : document.Holds ((Context.under outer before after parent).fill [outline])) :
    (fillText document params outline.id).Holds ((Context.under outer before after parent).fill [outline]) ∨
      (fillText document params outline.id).isLive outline.id = false ∧
      ∃ trees, (fillText document params outline.id).Holds
        ((Context.under outer before after parent).fill trees) := by
  rw [fillText]
  simp only
  split
  · split
    · refine .inr ⟨Document.isLive_delete_self _ outline.id, ?_⟩
      have placed : ∃ trees, (spliceAfter document outline.id (joinTexts
          ((Piece.ofText (document.text outline.id)).map (insertOf params)))).Holds
          ((Context.under outer before after parent).fill ([] ++ outline :: trees)) :=
        holds_spliceAfter holds
      obtain ⟨trees, placed⟩ := placed
      refine ⟨trees, ?_⟩
      have alone : (spliceAfter document outline.id (joinTexts
          ((Piece.ofText (document.text outline.id)).map (insertOf params)))).Holds
          ((Context.under outer before (trees ++ after) parent).fill [outline]) := by
        simpa [Context.fill] using placed
      simpa [Context.fill] using alone.delete
    · refine .inl ((holds.congr ?_).congr (sameLinks_preserveSpace _ outline.id))
      exact Document.sameLinks_modify document outline.id (fun _ => rfl) (fun _ => rfl) fun _ => rfl
  · exact .inl holds

theorem modest_fillNode : Modest (fillNode params) := by
  intro outer before after parent outline document own holds
  have valued := holds.congr (sameLinks_fillAttributes document params outline.id)
  simp only [fillNode]
  split
  · rcases fillText_modest valued with same | ⟨dead, trees⟩
    · exact .inl same
    · exact .inr ⟨.inr dead, trees⟩
  · exact .inl valued

end Visits

section Rows

/-- A run of the expansion whose walks are not bounded either. -/
inductive RunsFree (params : Params) : List Job → Document × Nat → Document × Nat → Prop
  | done {state : Document × Nat} : RunsFree params [] state state
  | walks {scope : NodeId} {jobs : List Job} {document walked : Document} {count counted : Nat}
      {copies : List NodeId} {middle final : Document × Nat}
      (walk : Walks (expandVisited params) (document.children scope) (document, count, [])
        (walked, counted, copies))
      (inner : RunsFree params (copies.map .copy) (walked, counted) middle)
      (next : RunsFree params jobs middle final) :
      RunsFree params (.within scope :: jobs) (document, count) final
  | repeats {row : NodeId} {jobs : List Job} {document expanded : Document} {count : Nat}
      {copies : List NodeId} {middle final : Document × Nat}
      (expand : expandRow? params .own document row = some (expanded, copies))
      (inner : RunsFree params (copies.map .copy) (expanded, count + 1) middle)
      (next : RunsFree params jobs middle final) :
      RunsFree params (.copy row :: jobs) (document, count) final
  | settles {row : NodeId} {jobs : List Job} {document : Document} {count : Nat}
      {middle final : Document × Nat} (expand : expandRow? params .own document row = none)
      (inner : RunsFree params [.within row] (document, count) middle)
      (next : RunsFree params jobs middle final) :
      RunsFree params (.copy row :: jobs) (document, count) final

theorem upright_walk_expandVisited (upright : Upright [] document) (scope : NodeId)
    (own : Nat × List NodeId) :
    Upright [] (document.walk scope (expandVisited params) own).1 := by
  refine Document.walk_induction (motive := fun state => Upright [] state.1)
    (fun middle own id _ kept => ?_) scope upright
  obtain ⟨count, copies⟩ := own
  simp only [expandVisited]
  split
  · split
    · rename_i expanded
      exact (upholds_expandRow? kept (isRow_of_expandRow? expanded) expanded).upright
    · exact kept
  · exact kept

/-- On an upright document no walk of a run comes to its bound. -/
theorem Runs.free {jobs : List Job} {state final : Document × Nat} (run : Runs params jobs state final)
    (upright : Upright [] state.1) : RunsFree params jobs state final ∧ Upright [] final.1 := by
  -- Walks are known to end on sound documents only, so that this is carried through the run.
  induction run with
  | done => exact ⟨.done, upright⟩
  | @walks scope jobs document walked count counted copies middle final walk _ _ innerIH nextIH =>
      have free := Document.walks_walk (@modest_expandVisited params) upright.sound scope (count, [])
      have kept := @upright_walk_expandVisited params _ upright scope (count, [])
      rw [walk] at free kept
      obtain ⟨inner, after⟩ := innerIH kept
      obtain ⟨next, last⟩ := nextIH after
      exact ⟨.walks free inner next, last⟩
  | repeats expand _ _ innerIH nextIH =>
      obtain ⟨inner, after⟩ :=
        innerIH (upholds_expandRow? upright (isRow_of_expandRow? expand) expand).upright
      obtain ⟨next, last⟩ := nextIH after
      exact ⟨.repeats expand inner next, last⟩
  | settles expand _ _ innerIH nextIH =>
      obtain ⟨inner, after⟩ := innerIH upright
      obtain ⟨next, last⟩ := nextIH after
      exact ⟨.settles expand inner next, last⟩

inductive RunsOverFree (params : Params) : List NodeId → Document × Nat → Document × Nat → Prop
  | done {skipped : List NodeId} {document : Document} {count : Nat}
      (none : nextPending? params document skipped = none) :
      RunsOverFree params skipped (document, count) (document, count)
  | skips {skipped : List NodeId} {document : Document} {count : Nat} {id : NodeId}
      {final : Document × Nat} (found : nextPending? params document skipped = some id)
      (outside : expandAround? params document id = none)
      (next : RunsOverFree params (id :: skipped) (document, count) final) :
      RunsOverFree params skipped (document, count) final
  | expands {skipped : List NodeId} {document expanded : Document} {count : Nat} {id : NodeId}
      {copies : List NodeId} {middle final : Document × Nat}
      (found : nextPending? params document skipped = some id)
      (expand : expandAround? params document id = some (expanded, copies))
      (inner : RunsFree params (copies.map .copy) (expanded, count + 1) middle)
      (next : RunsOverFree params skipped middle final) :
      RunsOverFree params skipped (document, count) final

theorem upright_expandAround? (upright : Upright [] document) {id : NodeId}
    {next : Document × List NodeId} (expanded : expandAround? params document id = some next) :
    Upright [] next.1 := by
  obtain ⟨row, closest, expanded⟩ := Option.bind_eq_some_iff.mp expanded
  exact (upholds_expandRow? upright (Document.isAny_of_closest? closest) expanded).upright

theorem RunsOver.free {skipped : List NodeId} {state final : Document × Nat}
    (run : RunsOver params skipped state final) (upright : Upright [] state.1) :
    RunsOverFree params skipped state final ∧ Upright [] final.1 := by
  induction run with
  | done none => exact ⟨.done none, upright⟩
  | skips found outside _ ih =>
      obtain ⟨next, last⟩ := ih upright
      exact ⟨.skips found outside next, last⟩
  | expands found expand inner _ ih =>
      obtain ⟨inner, after⟩ := inner.free (upright_expandAround? upright expand)
      obtain ⟨next, last⟩ := ih after
      exact ⟨.expands found expand inner next, last⟩

end Rows

section Passes

inductive FillsSingles (params : Params) (document : Document) : Document → Prop
  | walks {walked : Document} {firings : List Firing}
      (walk : Walks (fillNode params)
        ((fillAttributes document params document.root).children document.root)
        (fillAttributes document params document.root, []) (walked, firings)) :
      FillsSingles params document (Firing.evaluateAll walked firings)

theorem fillsSingles_fillSingles (upright : Upright [] document) (params : Params) :
    FillsSingles params document (fillSingles document params) := by
  have begun : Upholds document (fillAttributes document params document.root) :=
    .mapValues upright _ _
  exact .walks (Document.walks_walk modest_fillNode begun.upright.sound document.root [])

theorem expansion_free (keyed : params.Keyed) (upright : Upright [] document) :
    RunsFree params [.within document.root] (document, 0) (expandRows document params) ∧
      RunsOverFree params [] ((expandRows document params).1, 0)
        (expandLeftovers (expandRows document params).1 params) ∧
      Upholds document (expandLeftovers (expandRows document params).1 params).1 := by
  obtain ⟨tree, top, holds⟩ := upright.stands
  have notRow : document.isAny rowTags document.root = false := by
    by_contra isRow
    exact upright.ne_root (by decide) (Bool.not_eq_false _ ▸ isRow) rfl
  obtain ⟨after, done⟩ := rowsExpanded keyed holds top notRow
  have upholds := upholds_expandRows upright params
  have quiet : expandLeftovers (expandRows document params).1 params =
      ((expandRows document params).1, 0) := expandPending_of_quiet done.quiet _ _ _
  have runsOver := runsOver_of_quiet done.quiet 0 _ [] (Nat.le_refl _)
  rw [quiet]
  exact ⟨(done.runs.free upright).1, (runsOver.free upholds.upright).1, upholds⟩

/-- All passes of filling a document, one after the other, none of them with a bound on its steps. -/
inductive FillsFree (params : Params) (document : Document) : Document → Prop
  | passes {singles again : Document} {expanded rested split : Document × Nat}
      (first : FillsSingles params (Wordml.repairRuns (markLists document)) singles)
      (rows : RunsFree params [.within singles.root] (singles, 0) expanded)
      (leftovers : RunsOverFree params [] (expanded.1, 0) rested)
      (second : FillsSingles params (fillInline rested.1 params) again)
      (lines : SplitsLines [] (sweepUnset again params, 0) split) :
      FillsFree params document (stripMarks split.1)

/-- Filling an upright document comes to an end by itself, with an upright document whose marks are then
taken away. -/
theorem exists_fill_eq (keyed : params.Keyed) (upright : Upright [] document) :
    ∃ split, Upholds document split ∧ FillsFree params document (stripMarks split) ∧
      fill document params = stripMarks split := by
  have marked := upholds_markLists upright
  have repaired := marked.trans (.repairRuns marked.upright)
  have first := fillsSingles_fillSingles repaired.upright params
  have singles := upholds_fillSingles repaired.upright params
  rw [fill]
  generalize fillSingles _ params = filled at first singles ⊢
  obtain ⟨rows, leftovers, expanded⟩ := expansion_free keyed singles.upright
  generalize expandLeftovers _ params = rested at leftovers expanded ⊢
  have inlined := upholds_fillInline expanded.upright params
  have second := fillsSingles_fillSingles inlined.upright params
  have again := upholds_fillSingles inlined.upright params
  generalize fillSingles _ params = refilled at second again ⊢
  have swept := upholds_sweepUnset again.upright params
  have lines := splitsLines_splitLines swept.upright
  have filled := (singles.trans expanded).trans (inlined.trans again)
  exact ⟨_, (repaired.trans filled).trans (swept.trans (lines.upholds swept.upright)),
    .passes first rows leftovers second lines, rfl⟩

end Passes

end WordTemplate.Filling
