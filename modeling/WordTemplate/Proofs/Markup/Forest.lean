import WordTemplate.Proofs.Markup.Visible

/-! The forest of a store whose links agree with each other. It grows from the live slots without parent,
along the lists of children. -/

namespace WordTemplate.Markup.Document

open Outline (idsAll linksAll)
open Relation (ReflTransGen TransGen)

def outlineTo (document : Document) : Nat → NodeId → Outline
  | 0, id => .node id []
  | depth + 1, id => .node id ((document.children id).map (document.outlineTo depth))

def tops (document : Document) : List NodeId :=
  (List.range document.size).filter fun id => document.isLive id && (document.parent? id).isNone

variable {document : Document}

theorem ids_outlineTo (document : Document) (depth : Nat) (id : NodeId) :
    (document.outlineTo depth id).ids = document.linkedTo depth id := by
  induction depth generalizing id with
  | zero => rfl
  | succ depth ih =>
      rw [outlineTo, Outline.ids, Outline.idsAll_eq, linkedTo, List.flatMap_map]
      congr 1
      exact List.flatMap_congr fun child _ => ih child

@[simp]
theorem id_outlineTo (document : Document) (depth : Nat) (id : NodeId) :
    (document.outlineTo depth id).id = id := by
  cases depth <;> rfl

theorem reached_of_linkedTo {depth : Nat} {start id : NodeId}
    (linked : id ∈ document.linkedTo depth start) : ReflTransGen document.Lists start id := by
  induction depth generalizing start with
  | zero =>
      rw [linkedTo, List.mem_singleton] at linked
      exact linked ▸ .refl
  | succ depth ih =>
      rw [linkedTo, List.mem_cons, List.mem_flatMap] at linked
      rcases linked with rfl | ⟨child, lists, inside⟩
      · exact .refl
      · exact .head lists (ih inside)

theorem mem_tops {id : NodeId} :
    id ∈ document.tops ↔ document.isLive id = true ∧ document.parent? id = none := by
  rw [tops, List.mem_filter, List.mem_range, Bool.and_eq_true, Option.isNone_iff_eq_none]
  exact and_iff_right_of_imp fun both => lt_size_of_isLive both.1

namespace WellFormed

variable (wellFormed : document.WellFormed)
include wellFormed

theorem tied : document.Tied :=
  ⟨wellFormed.child_lt_size, wellFormed.above⟩

theorem acyclic_lists : document.Acyclic :=
  fun id cycle => wellFormed.acyclic id
    (TransGen.mono (fun _ _ lists => wellFormed.above lists) id id cycle)

/-- Two ways down to one slot share their end, since a slot has one parent. -/
theorem comparable {first second id : NodeId} (left : ReflTransGen document.Lists first id)
    (right : ReflTransGen document.Lists second id) :
    ReflTransGen document.Lists first second ∨ ReflTransGen document.Lists second first := by
  have unique : Relator.RightUnique (Function.swap document.Lists) := by
    intro child parent other lists beside
    exact Option.some.inj ((wellFormed.above lists).symm.trans (wellFormed.above beside))
  rw [← Relation.reflTransGen_swap] at left right
  exact (left.total_of_right_unique unique right).symm.imp Relation.reflTransGen_swap.mp
    Relation.reflTransGen_swap.mp

theorem eq_of_reached {first second id : NodeId}
    (same : document.parent? first = document.parent? second)
    (left : ReflTransGen document.Lists first id) (right : ReflTransGen document.Lists second id) :
    first = second := by
  -- A way from one to the other would pass their parent, and lead in a circle.
  have circle : ∀ {first second : NodeId}, document.parent? first = document.parent? second →
      ReflTransGen document.Lists first second → first = second := by
    intro first second same path
    by_contra apart
    rcases Relation.reflTransGen_iff_eq_or_transGen.mp path with equal | path
    · exact apart equal.symm
    · obtain ⟨parent, inner, last⟩ := TransGen.tail'_iff.mp path
      have above : document.Above parent first := same.trans (wellFormed.above last)
      have aboves : ReflTransGen document.Above first parent :=
        ReflTransGen.mono (fun _ _ lists => wellFormed.above lists) first parent inner
      exact wellFormed.acyclic first (TransGen.tail' aboves above)
  rcases wellFormed.comparable left right with path | path
  · exact circle same path
  · exact (circle same.symm path).symm

theorem nodup_linkedTo (depth : Nat) (id : NodeId) : (document.linkedTo depth id).Nodup := by
  induction depth generalizing id with
  | zero => simp [linkedTo]
  | succ depth ih =>
      rw [linkedTo, List.nodup_cons, List.nodup_flatMap]
      refine ⟨fun below => ?_, fun child _ => ih child, ?_⟩
      · obtain ⟨child, lists, inside⟩ := List.mem_flatMap.mp below
        exact wellFormed.acyclic_lists id (.head' lists (reached_of_linkedTo inside))
      · refine (wellFormed.nodup id).imp_of_mem ?_
        intro child other lists beside apart inner left right
        have same : document.parent? child = document.parent? other :=
          (wellFormed.above lists).trans (wellFormed.above beside).symm
        exact apart (wellFormed.eq_of_reached same (reached_of_linkedTo left) (reached_of_linkedTo right))

theorem has_outlineTo {depth : Nat} {id : NodeId} (live : document.isLive id = true)
    (deep : ∀ path, (id :: path).IsChain document.Lists → path.length ≤ depth) :
    ∀ link ∈ (document.outlineTo depth id).links (document.parent? id), document.Has link := by
  induction depth generalizing id with
  | zero =>
      have bare : document.children id = [] := by
        rw [List.eq_nil_iff_forall_not_mem]
        intro child lists
        have short := deep [child] (.cons_cons lists (.singleton child))
        simp at short
      intro link member
      rw [outlineTo, Outline.links, linksAll, List.mem_singleton] at member
      exact member ▸ ⟨live, rfl, bare⟩
  | succ depth ih =>
      intro link member
      rw [outlineTo, Outline.links, List.mem_cons, Outline.linksAll_eq, List.flatMap_map,
        List.mem_flatMap] at member
      rcases member with rfl | ⟨child, lists, inside⟩
      · refine ⟨live, rfl, ?_⟩
        simp [Function.comp_def]
      · have above : document.parent? child = some id := wellFormed.above lists
        rw [← above] at inside
        refine ih (wellFormed.child_live lists) (fun path chain => ?_) link inside
        have longer := deep (child :: path) (.cons_cons lists chain)
        rw [List.length_cons] at longer
        omega

theorem exists_top {id : NodeId} (live : document.isLive id = true) :
    ∃ top ∈ document.tops, ReflTransGen document.Lists top id := by
  -- Otherwise there would be ways of any length down to the slot.
  have climbs : ∀ length, (∃ top ∈ document.tops, ReflTransGen document.Lists top id) ∨
      ∃ first path, (first :: path).IsChain document.Lists ∧ document.isLive first = true ∧
        ReflTransGen document.Lists first id ∧ path.length = length := by
    intro length
    induction length with
    | zero => exact .inr ⟨id, [], .singleton id, live, .refl, rfl⟩
    | succ length ih =>
        rcases ih with found | ⟨first, path, chain, firstLive, reached, same⟩
        · exact .inl found
        · cases above : document.parent? first with
          | none => exact .inl ⟨first, mem_tops.mpr ⟨firstLive, above⟩, reached⟩
          | some parent =>
              have lists := wellFormed.lists firstLive above
              refine .inr ⟨parent, first :: path, .cons_cons lists chain,
                wellFormed.parent_live lists, .head lists reached, ?_⟩
              rw [List.length_cons, same]
  rcases climbs (document.size + 1) with found | ⟨first, path, chain, _, _, same⟩
  · exact found
  · have short := length_of_isChain wellFormed.tied wellFormed.acyclic_lists chain
    omega

/-- The live slots of a store whose links agree stand in a forest. -/
theorem stands : document.Stands := by
  have deep : ∀ id path, (id :: path).IsChain document.Lists → path.length ≤ document.size :=
    fun _ _ chain => length_of_isChain wellFormed.tied wellFormed.acyclic_lists chain
  have ids : idsAll (document.tops.map (document.outlineTo document.size)) =
      document.tops.flatMap (document.linkedTo document.size) := by
    rw [Outline.idsAll_eq, List.flatMap_map]
    exact List.flatMap_congr fun top _ => ids_outlineTo document _ top
  refine ⟨document.tops.map (document.outlineTo document.size), ?_, ?_, ?_, ?_⟩
  · rw [ids, List.nodup_flatMap]
    refine ⟨fun top _ => wellFormed.nodup_linkedTo _ top, ?_⟩
    refine (List.nodup_range.filter _).imp_of_mem ?_
    intro first second firstTop secondTop apart id left right
    have same := (mem_tops.mp firstTop).2.trans (mem_tops.mp secondTop).2.symm
    exact apart (wellFormed.eq_of_reached same (reached_of_linkedTo left) (reached_of_linkedTo right))
  · intro link member
    rw [Outline.linksAll_eq, List.flatMap_map, List.mem_flatMap] at member
    obtain ⟨top, listed, inside⟩ := member
    obtain ⟨live, free⟩ := mem_tops.mp listed
    rw [← free] at inside
    exact wellFormed.has_outlineTo live (deep top) link inside
  · intro id live
    obtain ⟨top, listed, reached⟩ := wellFormed.exists_top live
    rw [ids, List.mem_flatMap]
    exact ⟨top, listed, mem_linkedTo_of_reached wellFormed.tied wellFormed.acyclic_lists reached⟩
  · exact fun id dead => wellFormed.bare dead

end WellFormed

end WordTemplate.Markup.Document
