import WordTemplate.Markup.Walk
import WordTemplate.Proofs.Markup.Tending

/-! Walks whose visitor copies the visited node beside itself, removes nodes and rewrites them. The nodes
that are visited are some of those that were found below the start, in their order, and for each of the
others there is a reason why it is not visited. -/

namespace WordTemplate.Markup

theorem Context.parent?_beside (context : Context) (before after : List Outline) :
    (context.beside before after).parent? = context.parent? := by
  cases context <;> rfl

namespace Document

open Outline (idsAll heightAll)

variable {σ : Type}

/-- A visit of a node, with the document and the state of the walker before and after it. -/
structure Visit (σ : Type) where
  id : NodeId
  before : Document × σ
  after : Document × σ
  step : Step

/-- A walk with a stack of nodes that are still to be met, and the visits that it makes. The children of a
node that is visited come onto the stack when the visit is over. -/
inductive Tour (visit : Visitor σ) : List NodeId → Document × σ → List (Visit σ) → Document × σ → Prop
  | done {state : Document × σ} : Tour visit [] state [] state
  | passes {id : NodeId} {rest : List NodeId} {state final : Document × σ} {visits : List (Visit σ)}
      (dead : state.1.isLive id = false) (next : Tour visit rest state visits final) :
      Tour visit (id :: rest) state visits final
  | stops {id : NodeId} {rest : List NodeId} {state final : Document × σ} {visits : List (Visit σ)}
      {document : Document} {own : σ} {step : Step} (live : state.1.isLive id = true)
      (visited : visit state.1 state.2 id = (document, own, step))
      (stop : step = .skip ∨ document.isLive id = false)
      (next : Tour visit rest (document, own) visits final) :
      Tour visit (id :: rest) state (⟨id, state, (document, own), step⟩ :: visits) final
  | descends {id : NodeId} {rest : List NodeId} {state final : Document × σ} {visits : List (Visit σ)}
      {document : Document} {own : σ} (live : state.1.isLive id = true)
      (visited : visit state.1 state.2 id = (document, own, .descend)) (still : document.isLive id = true)
      (next : Tour visit (document.children id ++ rest) (document, own) visits final) :
      Tour visit (id :: rest) state (⟨id, state, (document, own), .descend⟩ :: visits) final

def documentAfter (document : Document) : List (Visit σ) → Document
  | [] => document
  | visit :: rest => documentAfter visit.after.1 rest

/-- What became of a node in a walk over nodes that had an order: it was visited, or stands below a node
that the walk did not go into, or was dead when its turn came. -/
inductive Accounted (origin start : Document) (order : List NodeId) (visits : List (Visit σ)) (id : NodeId) :
    Prop
  | visited (member : id ∈ visits.map Visit.id) : Accounted origin start order visits id
  | below {visit : Visit σ} (member : visit ∈ visits)
      (ended : visit.step = .skip ∨ visit.after.1.isLive visit.id = false)
      (inside : id ∈ origin.descendants visit.id) : Accounted origin start order visits id
  | dead {front back : List (Visit σ)} (parts : visits = front ++ back)
      (turn : (front.map Visit.id ++ id :: back.map Visit.id).Sublist order)
      (dead : (documentAfter start front).isLive id = false) : Accounted origin start order visits id

/-- At a live node the visitor only copies the node beside itself, and removes and rewrites nodes. -/
def Tends (visit : Visitor σ) : Prop :=
  ∀ document own id, document.isLive id = true → ∃ edits : List Edit,
    (∀ edit ∈ edits, edit.AtVisit id) ∧ (visit document own id).1 = document.editedAll edits

theorem documentAfter_append (document : Document) (front back : List (Visit σ)) :
    documentAfter document (front ++ back) = documentAfter (documentAfter document front) back := by
  induction front generalizing document with
  | nil => rfl
  | cons visit rest ih => exact ih visit.after.1

namespace Tour

variable {visit : Visitor σ} {ids more : List NodeId} {start middle final : Document × σ}
  {visits others : List (Visit σ)}

theorem append (first : Tour visit ids start visits middle) (second : Tour visit more middle others final) :
    Tour visit (ids ++ more) start (visits ++ others) final := by
  induction first with
  | done => exact second
  | passes dead _ ih => exact .passes dead (ih second)
  | stops live visited stop _ ih => exact .stops live visited stop (ih second)
  | descends live visited still _ ih =>
      have next := ih second
      rw [List.append_assoc] at next
      exact .descends live visited still next

theorem documentAfter_eq (tour : Tour visit ids start visits final) :
    documentAfter start.1 visits = final.1 := by
  induction tour with
  | done => rfl
  | passes _ _ ih => exact ih
  | stops _ _ _ _ ih => exact ih
  | descends _ _ _ _ ih => exact ih

theorem isLive (tour : Tour visit ids start visits final) :
    ∀ made ∈ visits, made.before.1.isLive made.id = true := by
  induction tour with
  | done => simp
  | passes _ _ ih => exact ih
  | stops live _ _ _ ih => exact List.forall_mem_cons.mpr ⟨live, ih⟩
  | descends live _ _ _ ih => exact List.forall_mem_cons.mpr ⟨live, ih⟩

end Tour

namespace Accounted

variable {origin start middle : Document} {order more : List NodeId} {visits others : List (Visit σ)}
  {id : NodeId}

theorem before (accounted : Accounted origin start order visits id)
    (further : (others.map Visit.id).Sublist more) :
    Accounted origin start (order ++ more) (visits ++ others) id := by
  cases accounted with
  | visited member => exact .visited (by simp [member])
  | below member ended inside => exact .below (List.mem_append_left _ member) ended inside
  | @dead front back parts turn dead =>
      refine .dead (by rw [parts, List.append_assoc]) ?_ dead
      rw [List.map_append, ← List.cons_append, ← List.append_assoc]
      exact turn.append further

theorem after (accounted : Accounted origin middle more others id)
    (earlier : (visits.map Visit.id).Sublist order) (same : documentAfter start visits = middle) :
    Accounted origin start (order ++ more) (visits ++ others) id := by
  cases accounted with
  | visited member => exact .visited (by simp [member])
  | below member ended inside => exact .below (List.mem_append_right _ member) ended inside
  | @dead front back parts turn dead =>
      refine .dead (by rw [parts, List.append_assoc]) ?_ ?_
      · rw [List.map_append, List.append_assoc]
        exact earlier.append turn
      · rwa [documentAfter_append, same]

end Accounted

/-- The slots have kept their place below a document as it was, but for nodes that have died. -/
structure Kept (origin : Document) (ids : List NodeId) (document : Document) : Prop where
  stands : document.Stands
  ages : Ages origin document
  bound : ∀ id ∈ ids, id < origin.size
  parent : ∀ id ∈ ids, document.isLive id = true → document.parent? id = origin.parent? id
  children : ∀ id ∈ ids, document.children id = (origin.children id).filter document.isLive

namespace Kept

variable {origin document later : Document} {ids : List NodeId}

theorem refl (stands : origin.Stands) (bound : ∀ id ∈ ids, id < origin.size) : Kept origin ids origin := by
  refine ⟨stands, .refl origin, bound, fun _ _ _ => rfl, fun id _ => ?_⟩
  rw [eq_comm, List.filter_eq_self]
  exact fun child lists => stands.child_live lists

theorem subset (kept : Kept origin ids document) {others : List NodeId} (subset : others ⊆ ids) :
    Kept origin others document :=
  ⟨kept.stands, kept.ages, fun id member => kept.bound id (subset member),
    fun id member => kept.parent id (subset member), fun id member => kept.children id (subset member)⟩

theorem tended (kept : Kept origin ids document) (stands : origin.Stands) {visited : NodeId}
    (tended : Tended visited document later) (elsewhere : ∀ id ∈ ids, document.parent? visited ≠ some id) :
    Kept origin ids later := by
  have bound : ∀ id ∈ ids, id < document.size := fun id member =>
    Nat.lt_of_lt_of_le (kept.bound id member) kept.ages.size_le
  refine ⟨tended.stands, kept.ages.trans tended.ages, kept.bound, fun id member live => ?_, fun id member => ?_⟩
  · have alive : document.isLive id = true := by
      by_contra dead
      rw [tended.ages.dead id (bound id member) (by simpa using dead)] at live
      exact absurd live (by decide)
    rcases tended.parent id (bound id member) with same | ⟨dead, -⟩
    · exact same.trans (kept.parent id member alive)
    · rw [live] at dead
      exact absurd dead (by decide)
  · rw [tended.children id (bound id member) (elsewhere id member), kept.children id member]
    exact stands.filter_filter kept.ages tended.ages id

theorem dead_below {outline : Outline} {above : Option NodeId} (kept : Kept origin outline.ids document)
    (links : ∀ link ∈ outline.links above, origin.Has link) (dead : document.isLive outline.id = false) :
    ∀ id ∈ outline.ids, document.isLive id = false := by
  induction outline using Outline.induction generalizing above with
  | node top children ih =>
      rw [Outline.ids, List.forall_mem_cons]
      refine ⟨dead, fun id member => ?_⟩
      obtain ⟨child, listed, inside⟩ := Outline.mem_idsAll.mp member
      have subset : child.ids ⊆ (Outline.node top children).ids := fun other deeper => by
        rw [Outline.ids]
        exact List.mem_cons_of_mem _ (Outline.mem_idsAll.mpr ⟨child, listed, deeper⟩)
      have below := has_of_child links listed
      refine ih child listed (kept.subset subset) below ?_ id inside
      by_contra live
      have alive : document.isLive child.id = true := by simpa using live
      have stands : document.Above top child.id :=
        (kept.parent child.id (subset child.id_mem_ids) alive).trans
          (below _ (top_mem_links child (some top))).parent
      rw [Outline.id_node] at dead
      rw [kept.stands.parent_live (kept.stands.lists alive stands)] at dead
      exact absurd dead (by decide)

end Kept

structure Toured (visit : Visitor σ) (origin : Document) (above : Option NodeId) (outlines : List Outline)
    (ids : List NodeId) (start : Document × σ) (visits : List (Visit σ)) (final : Document × σ) : Prop where
  tour : Tour visit ids start visits final
  order : (visits.map Visit.id).Sublist (idsAll outlines)
  accounted : ∀ id ∈ idsAll outlines, Accounted origin start.1 (idsAll outlines) visits id
  ages : Ages start.1 final.1
  kept : ∀ others, (∀ id ∈ others, id ∉ idsAll outlines ∧ above ≠ some id) → Kept origin others start.1 →
    Kept origin others final.1

namespace Toured

variable {visit : Visitor σ} {origin : Document} {above : Option NodeId} {outlines more : List Outline}
  {ids others : List NodeId} {start middle final : Document × σ} {visits further : List (Visit σ)}

theorem of_dead (tour : Tour visit ids start [] start)
    (dead : ∀ id ∈ idsAll outlines, start.1.isLive id = false) :
    Toured visit origin above outlines ids start [] start where
  tour := tour
  order := List.nil_sublist _
  accounted := fun id member =>
    .dead (List.append_nil []).symm (List.singleton_sublist.mpr member) (dead id member)
  ages := .refl start.1
  kept := fun _ _ kept => kept

theorem append (first : Toured visit origin above outlines ids start visits middle)
    (second : Toured visit origin above more others middle further final) :
    Toured visit origin above (outlines ++ more) (ids ++ others) start (visits ++ further) final where
  tour := first.tour.append second.tour
  order := by
    rw [List.map_append, Outline.idsAll_append]
    exact first.order.append second.order
  accounted := by
    intro id member
    rw [Outline.idsAll_append] at member ⊢
    rcases List.mem_append.mp member with here | later
    · exact (first.accounted id here).before second.order
    · exact (second.accounted id later).after first.order first.tour.documentAfter_eq
  ages := first.ages.trans second.ages
  kept := by
    intro ids apart kept
    simp only [Outline.idsAll_append, List.mem_append, not_or] at apart
    refine second.kept ids (fun id member => ⟨(apart id member).1.2, (apart id member).2⟩) ?_
    exact first.kept ids (fun id member => ⟨(apart id member).1.1, (apart id member).2⟩) kept

end Toured

def Tourable (visit : Visitor σ) (origin : Document) (depth : Nat) : Prop :=
  ∀ {context : Context} {outline : Outline} {state : Document × σ},
    origin.Holds (context.fill [outline]) → Kept origin outline.ids state.1 → outline.height ≤ depth →
    ∃ visits, Toured visit origin context.parent? [outline] [outline.id] state visits
      (walkNode visit depth state outline.id)

/-- Those that are missing among the children of a node have died before. -/
theorem exists_toured_children {visit : Visitor σ} {origin : Document} {depth : Nat}
    (tourable : Tourable visit origin depth) {context : Context} {outlines : List Outline}
    {state : Document × σ} (holds : origin.Holds (context.fill outlines))
    (kept : Kept origin (idsAll outlines) state.1) (shallow : heightAll outlines ≤ depth)
    (left : NodeId → Bool)
    (lost : ∀ outline ∈ outlines, left outline.id = false → state.1.isLive outline.id = false) :
    ∃ visits, Toured visit origin context.parent? outlines ((outlines.map Outline.id).filter left) state
      visits (((outlines.map Outline.id).filter left).foldl (walkNode visit depth) state) := by
  induction outlines generalizing context state with
  | nil => exact ⟨[], .of_dead .done (by simp [idsAll])⟩
  | cons outline rest ih =>
      simp only [heightAll] at shallow
      have inside := holds_fill_iff.mp holds
      obtain ⟨-, nodup, outside⟩ := List.nodup_append.mp inside.nodup
      rw [idsAll] at nodup outside kept
      have atFirst : origin.Holds ((context.beside [] rest).fill [outline]) := by
        simpa [Context.fill_beside] using holds
      have atRest : origin.Holds ((context.beside [outline] []).fill rest) := by
        simpa [Context.fill_beside] using holds
      have keptFirst := kept.subset (List.subset_append_left _ _)
      have keptRest := kept.subset (List.subset_append_right _ _)
      obtain ⟨lostHere, lostLater⟩ := List.forall_mem_cons.mp lost
      cases here : left outline.id with
      | true =>
          obtain ⟨visits, first⟩ := tourable atFirst keptFirst (by omega)
          rw [Context.parent?_beside] at first
          have apart : ∀ id ∈ idsAll rest, id ∉ idsAll [outline] ∧ context.parent? ≠ some id := by
            intro id member
            rw [idsAll, idsAll, List.append_nil]
            refine ⟨fun early => (List.nodup_append.mp nodup).2.2 id early id member rfl, fun above => ?_⟩
            exact outside id (Context.parent_mem_ids above) id (List.mem_append_right _ member) rfl
          obtain ⟨further, second⟩ := ih atRest (first.kept _ apart keptRest) (by omega)
            fun other member gone => first.ages.dead _
              (Nat.lt_of_lt_of_le (kept.bound _ (List.mem_append_right _ (Outline.mem_idsAll.mpr
                ⟨other, member, other.id_mem_ids⟩))) kept.ages.size_le) (lostLater other member gone)
          rw [Context.parent?_beside] at second
          refine ⟨visits ++ further, ?_⟩
          rw [List.map_cons, List.filter_cons_of_pos here, List.foldl_cons]
          exact first.append second
      | false =>
          have dead := keptFirst.dead_below
            (fun link member => inside.filling link (List.mem_append_left _ member)) (lostHere here)
          obtain ⟨further, second⟩ := ih atRest keptRest (by omega) lostLater
          rw [Context.parent?_beside] at second
          refine ⟨further, ?_⟩
          rw [List.map_cons, List.filter_cons_of_neg (by simp [here])]
          have first : Toured visit origin context.parent? [outline] [] state [] state :=
            .of_dead .done (by simpa [idsAll] using dead)
          exact first.append second

section Visited

variable {visit : Visitor σ} {origin : Document} {context : Context} {id : NodeId}
  {children : List Outline} {state : Document × σ} {document : Document} {own : σ}
  (holds : origin.Holds (context.fill [.node id children])) (live : state.1.isLive id = true)
  (kept : Kept origin (Outline.node id children).ids state.1) (tended : Tended id state.1 document)
include holds live kept tended

theorem Kept.visited {others : List NodeId} (before : Kept origin others state.1)
    (apart : ∀ other ∈ others, context.parent? ≠ some other) : Kept origin others document := by
  have parent := kept.parent id (Outline.id_mem_ids (.node id children)) live
  have above := (holds_fill_iff.mp holds).top.parent
  refine before.tended ⟨_, holds⟩ tended fun other member stands => apart other member ?_
  exact above.symm.trans (parent.symm.trans stands)

theorem Toured.stops {step : Step} (visited : visit state.1 state.2 id = (document, own, step))
    (stop : step = .skip ∨ document.isLive id = false) :
    Toured visit origin context.parent? [.node id children] [id] state
      [⟨id, state, (document, own), step⟩] (document, own) where
  tour := .stops live visited stop .done
  order := by
    rw [idsAll, idsAll, Outline.ids, List.append_nil]
    exact List.Sublist.cons_cons id (List.nil_sublist _)
  accounted := by
    have below := holds.descendants
    rw [Outline.id_node, Outline.children_node] at below
    rw [idsAll, idsAll, Outline.ids, List.append_nil, List.forall_mem_cons]
    refine ⟨.visited (List.mem_singleton_self id), fun other member => ?_⟩
    exact .below (List.mem_singleton_self _) stop (below ▸ member)
  ages := tended.ages
  kept := fun _ apart before => Kept.visited holds live kept tended before fun other member => (apart other member).2

theorem Toured.descends {visits : List (Visit σ)} {final : Document × σ}
    (visited : visit state.1 state.2 id = (document, own, .descend)) (still : document.isLive id = true)
    (inner : Toured visit origin (some id) children (document.children id) (document, own) visits final) :
    Toured visit origin context.parent? [.node id children] [id] state
      (⟨id, state, (document, own), .descend⟩ :: visits) final where
  tour := .descends live visited still (by rw [List.append_nil]; exact inner.tour)
  order := by
    rw [idsAll, idsAll, Outline.ids, List.append_nil]
    exact inner.order.cons_cons id
  accounted := by
    rw [idsAll, idsAll, Outline.ids, List.append_nil, List.forall_mem_cons]
    refine ⟨.visited (by simp), fun other member => ?_⟩
    have earlier : ([(⟨id, state, (document, own), .descend⟩ : Visit σ)].map Visit.id).Sublist [id] :=
      List.Sublist.refl [id]
    exact (inner.accounted other member).after earlier rfl
  ages := tended.ages.trans inner.ages
  kept := by
    intro others apart before
    simp only [idsAll, Outline.ids, List.append_nil, List.mem_cons, not_or] at apart
    refine inner.kept others (fun other member => ⟨(apart other member).1.2, ?_⟩) ?_
    · exact fun same => (apart other member).1.1 (Option.some.inj same).symm
    · exact Kept.visited holds live kept tended before fun other member => (apart other member).2

theorem exists_toured_descends {depth : Nat} (tourable : Tourable visit origin depth)
    (shallow : (Outline.node id children).height ≤ depth + 1)
    (visited : visit state.1 state.2 id = (document, own, .descend))
    (still : document.isLive id = true) :
    ∃ visits, Toured visit origin context.parent? [.node id children] [id] state visits
      ((document.children id).foldl (walkNode visit depth) (document, own)) := by
  have inside := holds_fill_iff.mp holds
  have below : origin.Holds ((Context.under context [] [] id).fill children) := by
    simpa [Context.fill] using holds
  have after := Kept.visited holds live kept tended kept fun other member above =>
    inside.not_mem_ids (Context.parent_mem_ids above) member
  have listed : document.children id = (children.map Outline.id).filter document.isLive := by
    have top := inside.top.children
    simp only [Outline.id_node, Outline.children_node] at top
    rw [after.children id (Outline.id_mem_ids (.node id children)), top]
  have keptBelow : Kept origin (idsAll children) document :=
    after.subset fun other member => List.mem_cons_of_mem id member
  rw [Outline.height] at shallow
  obtain ⟨visits, inner⟩ : ∃ visits, Toured visit origin (some id) _ _ (document, own) visits _ :=
    exists_toured_children tourable below keptBelow (Nat.le_of_succ_le_succ shallow)
      document.isLive fun _ _ dead => dead
  rw [← listed] at inner
  exact ⟨_, .descends holds live kept tended visited still inner⟩

end Visited

theorem tourable {visit : Visitor σ} (tends : Tends visit) (origin : Document) (depth : Nat) :
    Tourable visit origin depth := by
  induction depth with
  | zero =>
      intro context outline state _ _ shallow
      cases outline
      simp [Outline.height] at shallow
  | succ depth ih =>
      intro context outline state holds kept shallow
      by_cases live : state.1.isLive outline.id = true
      · obtain ⟨edits, atVisit, same⟩ := tends state.1 state.2 outline.id live
        have tended : Tended outline.id state.1 (visit state.1 state.2 outline.id).1 :=
          same ▸ kept.stands.tended_editedAll (lt_size_of_isLive live) atVisit
        clear same
        cases outline with
        | node id children =>
            simp only [Outline.id_node] at live tended ⊢
            rw [walkNode, if_pos live]
            cases visited : visit state.1 state.2 id with
            | mk document rest =>
                obtain ⟨own, step⟩ := rest
                rw [visited] at tended
                by_cases stop : step = .skip ∨ document.isLive id = false
                · have halts : (step = .skip || !document.isLive id) = true := by simpa using stop
                  simp only [halts, if_true]
                  exact ⟨_, .stops holds live kept tended visited stop⟩
                · have goesOn : ¬ (step = .skip || !document.isLive id) = true := by simpa using stop
                  simp only [goesOn]
                  have still : document.isLive id = true := by simpa using (not_or.mp stop).2
                  obtain rfl : step = .descend := by
                    cases step with
                    | descend => rfl
                    | skip => exact absurd (.inl rfl) stop
                  exact exists_toured_descends holds live kept tended ih shallow visited still
      · have dead : state.1.isLive outline.id = false := by simpa using live
        have stays : walkNode visit (depth + 1) state outline.id = state := by simp [walkNode, dead]
        rw [stays]
        have links : ∀ link ∈ outline.links context.parent?, origin.Has link :=
          (holds_fill_iff.mp holds).links
        exact ⟨[], .of_dead (.passes dead .done) (by simpa [idsAll] using kept.dead_below links dead)⟩

/-- A walk whose visitor copies the visited node beside itself, removes nodes and rewrites them comes to its
end. It visits live nodes that were found below the start in the beginning, in their order and once each, and
all others stand below a node that it did not go into or were dead when their turn came. -/
theorem walk_tour {visit : Visitor σ} (tends : Tends visit) {document : Document}
    (wellFormed : document.WellFormed) (start : NodeId) (own : σ) :
    ∃ visits : List (Visit σ),
      Tour visit (document.children start) (document, own) visits (document.walk start visit own) ∧
      (document.descendants start).Nodup ∧
      (visits.map Visit.id).Sublist (document.descendants start) ∧
      (∀ made ∈ visits, made.before.1.isLive made.id = true) ∧
      ∀ id ∈ document.descendants start,
        Accounted document document (document.descendants start) visits id := by
  have stands := wellFormed.stands
  have nodup := (stands.descendants start).1
  by_cases live : document.isLive start = true
  · obtain ⟨context, ⟨id, children⟩, same, holds⟩ := stands.exists_context live
    obtain rfl : id = start := same
    have inside := holds_fill_iff.mp holds
    have top := inside.top.children
    have found := holds.descendants
    simp only [Outline.id_node, Outline.children_node] at top found
    have below : document.Holds ((Context.under context [] [] id).fill children) := by
      simpa [Context.fill] using holds
    have kept : Kept document (idsAll children) document := .refl stands fun other member =>
      lt_size_of_isLive ((holds_fill_iff.mp below).isLive_of_mem_idsAll member)
    have shallow : heightAll children ≤ document.size := by
      have height := inside.height_le_size
      rw [Outline.height] at height
      omega
    obtain ⟨visits, toured⟩ : ∃ visits, Toured visit document _ _ _ (document, own) visits _ :=
      exists_toured_children (tourable tends document document.size) below kept shallow (fun _ => true)
        (by simp)
    rw [List.filter_true, ← top] at toured
    rw [found] at nodup ⊢
    exact ⟨visits, toured.tour, nodup, toured.order, toured.tour.isLive, toured.accounted⟩
  · have bare := stands.bare (by simpa using live)
    have none : document.descendants start = [] := by
      rw [descendants]
      cases document.size <;> simp [descendantsTo, bare]
    refine ⟨[], ?_, nodup, List.nil_sublist _, by simp, by simp [none]⟩
    rw [walk, bare]
    exact .done

def twoParagraphs : Document :=
  .ofTree false (.node { tag := "w:body" }
    [.node { tag := "w:p", text := "a" } [], .node { tag := "w:p", text := "b" } []])

/-- Copies the visited node beside itself and removes the second paragraph. -/
def copying : Visitor Unit :=
  fun document own id => ((document.cloneAfter id).1.delete 2, own, .skip)

theorem walk_tour_twoParagraphs :
    ∃ visits, Tour copying [1, 2] (twoParagraphs, ()) visits (twoParagraphs.walk 0 copying ()) ∧
      (visits.map Visit.id).Sublist [1, 2] ∧ Accounted twoParagraphs twoParagraphs [1, 2] visits 2 ∧
      (twoParagraphs.walk 0 copying ()).1.children 0 = [1, 3] := by
  have tends : Tends copying := by
    intro document own id _
    exact ⟨[.cloneAfter id, .delete 2], by simp [Edit.AtVisit], by simp [copying, editedAll, Edit.apply]⟩
  have wellFormed : twoParagraphs.WellFormed := (sound_ofTree false _).wellFormed
  obtain ⟨visits, tour, -, order, -, accounted⟩ := walk_tour tends wellFormed 0 ()
  exact ⟨visits, tour, order, accounted 2 (by decide), by decide⟩

end Document

end WordTemplate.Markup
