import WordTemplate.Markup.Walk
import WordTemplate.Proofs.Markup.Edits

/-! Walks without a bound on their depth. A visitor that leaves a node with what stands below it alone, or
else is done with the node, cannot lead a walk deeper than the tree that it started on, so that the walk
comes to an end. -/

namespace WordTemplate.Markup.Document

open Outline (idsAll heightAll)

variable {σ : Type}

/-- A walk over nodes that are still to be visited, one after the other, and over the children that each of
them has when it has been visited. -/
inductive Walks (visit : Visitor σ) : List NodeId → Document × σ → Document × σ → Prop
  | done {state : Document × σ} : Walks visit [] state state
  | passes {id : NodeId} {rest : List NodeId} {state final : Document × σ}
      (dead : state.1.isLive id = false) (next : Walks visit rest state final) :
      Walks visit (id :: rest) state final
  | stops {id : NodeId} {rest : List NodeId} {state final : Document × σ} {document : Document} {own : σ}
      {step : Step} (live : state.1.isLive id = true)
      (visited : visit state.1 state.2 id = (document, own, step))
      (stop : step = .skip ∨ document.isLive id = false) (next : Walks visit rest (document, own) final) :
      Walks visit (id :: rest) state final
  | descends {id : NodeId} {rest : List NodeId} {state middle final : Document × σ} {document : Document}
      {own : σ} (live : state.1.isLive id = true)
      (visited : visit state.1 state.2 id = (document, own, .descend)) (still : document.isLive id = true)
      (inner : Walks visit (document.children id) (document, own) middle)
      (next : Walks visit rest middle final) : Walks visit (id :: rest) state final

theorem Walks.append {visit : Visitor σ} {front back : List NodeId} {start middle final : Document × σ}
    (first : Walks visit front start middle) (second : Walks visit back middle final) :
    Walks visit (front ++ back) start final := by
  induction first with
  | done => exact second
  | passes dead _ ih => exact .passes dead (ih second)
  | stops live visited stop _ ih => exact .stops live visited stop (ih second)
  | descends live visited still inner _ _ ih => exact .descends live visited still inner (ih second)

/-- What a visit of a node leaves there: the node with all below it, or other trees that the walk does not
go into. -/
def Modest (visit : Visitor σ) : Prop :=
  ∀ {outer : Context} {before after : List Outline} {parent : NodeId} {outline : Outline}
    {document : Document} (own : σ),
    document.Holds ((Context.under outer before after parent).fill [outline]) →
    (visit document own outline.id).1.Holds ((Context.under outer before after parent).fill [outline]) ∨
      ((visit document own outline.id).2.2 = .skip ∨
        (visit document own outline.id).1.isLive outline.id = false) ∧
      ∃ trees, (visit document own outline.id).1.Holds
        ((Context.under outer before after parent).fill trees)

variable {visit : Visitor σ}

structure WalksTo (visit : Visitor σ) (context : Context) (ids : List NodeId) (start result : Document × σ)
    (left : List Outline) : Prop where
  holds : result.1.Holds (context.fill left)
  walks : Walks visit ids start result

/-- Walking over a node comes to an end if there are at least as many levels as the node has. -/
def Reaches (visit : Visitor σ) (depth : Nat) : Prop :=
  ∀ {outer : Context} {before after : List Outline} {parent : NodeId} {outline : Outline}
    {state : Document × σ}, state.1.Holds ((Context.under outer before after parent).fill [outline]) →
    outline.height ≤ depth →
    ∃ left, WalksTo visit (.under outer before after parent) [outline.id] state
      (walkNode visit depth state outline.id) left

theorem walksTo_children {depth : Nat} (reaches : Reaches visit depth) {outer : Context}
    {before after : List Outline} {parent : NodeId} {outlines : List Outline} {state : Document × σ}
    (holds : state.1.Holds ((Context.under outer before after parent).fill outlines))
    (shallow : heightAll outlines ≤ depth) :
    ∃ left, WalksTo visit (.under outer before after parent) (outlines.map Outline.id) state
      ((outlines.map Outline.id).foldl (walkNode visit depth) state) left := by
  induction outlines generalizing before state with
  | nil => exact ⟨[], holds, .done⟩
  | cons outline rest ih =>
      simp only [heightAll] at shallow
      have atFirst : state.1.Holds ((Context.under outer before (rest ++ after) parent).fill [outline]) := by
        simpa [Context.fill] using holds
      obtain ⟨left, first⟩ := reaches atFirst (by omega)
      have atRest : (walkNode visit depth state outline.id).1.Holds
          ((Context.under outer (before ++ left) after parent).fill rest) := by
        simpa [Context.fill] using first.holds
      obtain ⟨others, second⟩ := ih atRest (by omega)
      refine ⟨left ++ others, ?_, first.walks.append second.walks⟩
      rw [List.map_cons, List.foldl_cons]
      simpa [Context.fill] using second.holds

theorem reaches (modest : Modest visit) (depth : Nat) : Reaches visit depth := by
  -- A walk goes on below a node only if the visit has left it as it was, one level lower.
  induction depth with
  | zero =>
      intro outer before after parent outline state _ shallow
      cases outline
      simp [Outline.height] at shallow
  | succ depth ih =>
      intro outer before after parent outline state holds shallow
      have live : state.1.isLive outline.id = true := (holds_fill_iff.mp holds).top.live
      have kept := modest state.2 holds
      simp only [walkNode, live, if_true]
      cases visited : visit state.1 state.2 outline.id with
      | mk document rest =>
          obtain ⟨own, step⟩ := rest
          rw [visited] at kept
          simp only at kept ⊢
          by_cases stop : step = .skip ∨ document.isLive outline.id = false
          · have halts : (step = .skip || !document.isLive outline.id) = true := by simpa using stop
            rw [if_pos halts]
            rcases kept with same | ⟨_, trees, others⟩
            · exact ⟨[outline], same, .stops live visited stop .done⟩
            · exact ⟨trees, others, .stops live visited stop .done⟩
          · have halts : ¬ (step = .skip || !document.isLive outline.id) = true := by simpa using stop
            rw [if_neg halts]
            have same := kept.resolve_right fun other => stop other.1
            have still : document.isLive outline.id = true := by simpa using (not_or.mp stop).2
            obtain rfl : step = .descend := by
              cases step with
              | descend => rfl
              | skip => exact absurd (.inl rfl) stop
            have children := (holds_fill_iff.mp same).top.children
            cases outline with
            | node id inner =>
                simp only [Outline.id_node, Outline.children_node] at children still visited live ⊢
                have atChildren : document.Holds
                    ((Context.under (.under outer before after parent) [] [] id).fill inner) := by
                  simpa [Context.fill] using same
                simp only [Outline.height] at shallow
                have shallow' : heightAll inner ≤ depth := by omega
                obtain ⟨left, below⟩ : ∃ left, WalksTo visit _ _ (document, own) _ left :=
                  walksTo_children ih atChildren shallow'
                rw [← children] at below
                refine ⟨[.node id left], ?_, .descends live visited still below.walks .done⟩
                simpa [Context.fill] using below.holds

/-- A walk on a sound document comes to an end by itself. -/
theorem walks_walk (modest : Modest visit) {document : Document} (sound : document.Sound) (start : NodeId)
    (own : σ) : Walks visit (document.children start) (document, own) (document.walk start visit own) := by
  by_cases live : document.isLive start = true
  · obtain ⟨context, outline, rfl, holds⟩ := sound.exists_context live
    have bound := (holds_fill_iff.mp holds).height_le_size
    have children := (holds_fill_iff.mp holds).top.children
    cases outline with
    | node id inner =>
        have atChildren : document.Holds ((Context.under context [] [] id).fill inner) := by
          simpa [Context.fill] using holds
        simp only [Outline.height] at bound
        simp only [Outline.id_node, Outline.children_node] at children ⊢
        have shallow : heightAll inner ≤ document.size := by omega
        obtain ⟨_, walked⟩ : ∃ left, WalksTo visit _ _ (document, own) _ left :=
          walksTo_children (reaches modest document.size) atChildren shallow
        rw [walk, children]
        exact walked.walks
  · have bare := sound.wellFormed.bare (by simpa using live)
    rw [walk, bare]
    exact .done

end WordTemplate.Markup.Document
