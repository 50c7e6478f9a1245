import WordTemplate.Proofs.Markup.Edits

/-! Taking nodes out of a document. What is linked to the nodes that are left stays as it was, and so
does all that is found by going down or up from them. -/

namespace WordTemplate.Markup.Document

open Outline (idsAll)
open Relation (TransGen)

/-- The second document is the first one without some slots, which are closed under children. -/
structure Removes (gone : List NodeId) (first second : Document) : Prop where
  size : second.size = first.size
  root : second.root = first.root
  tag : ∀ id, second.tag id = first.tag id
  dead : ∀ id ∈ gone, second.isLive id = false
  live : ∀ id, id ∉ gone → second.isLive id = first.isLive id
  parent : ∀ id, id ∉ gone → second.parent? id = first.parent? id
  children : ∀ id, id ∉ gone → second.children id = (first.children id).filter (· ∉ gone)
  below : ∀ id ∈ gone, ∀ child ∈ first.children id, child ∈ gone

namespace Removes

variable {first second third : Document} {gone more : List NodeId}

theorem of_sameLinks (links : SameLinks first second) (size : second.size = first.size)
    (root : second.root = first.root) (tag : ∀ id, second.tag id = first.tag id) :
    Removes [] first second where
  size := size
  root := root
  tag := tag
  dead := by simp
  live := fun id _ => links.isLive id
  parent := fun id _ => links.parent? id
  children := fun id _ => by simp [links.children]
  below := by simp

theorem trans (left : Removes gone first second) (right : Removes more second third) :
    Removes (gone ++ more) first third where
  size := right.size.trans left.size
  root := right.root.trans left.root
  tag := fun id => (right.tag id).trans (left.tag id)
  dead := by
    intro id member
    by_cases later : id ∈ more
    · exact right.dead id later
    · rw [right.live id later]
      exact left.dead id ((List.mem_append.mp member).resolve_right later)
  live := by
    intro id kept
    rw [List.mem_append, not_or] at kept
    rw [right.live id kept.2, left.live id kept.1]
  parent := by
    intro id kept
    rw [List.mem_append, not_or] at kept
    rw [right.parent id kept.2, left.parent id kept.1]
  children := by
    intro id kept
    rw [List.mem_append, not_or] at kept
    rw [right.children id kept.2, left.children id kept.1, List.filter_filter]
    apply List.filter_congr
    intro child _
    simp [Bool.and_comm]
  below := by
    intro id member child listed
    rw [List.mem_append]
    by_cases early : id ∈ gone
    · exact .inl (left.below id early child listed)
    · by_cases lost : child ∈ gone
      · exact .inl lost
      · right
        refine right.below id ((List.mem_append.mp member).resolve_left early) child ?_
        rw [left.children id early, List.mem_filter]
        exact ⟨listed, by simpa using lost⟩

/-- What is below a node that goes, goes with it. -/
theorem lost_below (removes : Removes gone first second) {depth : Nat} {id other : NodeId}
    (member : id ∈ gone) (below : other ∈ first.descendantsTo depth id) : other ∈ gone := by
  induction depth generalizing id with
  | zero => simp [Document.descendantsTo] at below
  | succ depth ih =>
      rw [Document.descendantsTo, List.mem_flatMap] at below
      obtain ⟨child, listed, inside⟩ := below
      have childLost := removes.below id member child listed
      split at inside
      · rcases List.mem_cons.mp inside with rfl | deeper
        · exact childLost
        · exact ih childLost deeper
      · simp at inside

theorem descendantsTo (removes : Removes gone first second) (depth : Nat) {id : NodeId}
    (kept : id ∉ gone) :
    second.descendantsTo depth id = (first.descendantsTo depth id).filter (· ∉ gone) := by
  induction depth generalizing id with
  | zero => rfl
  | succ depth ih =>
      rw [Document.descendantsTo, Document.descendantsTo, removes.children id kept,
        List.filter_flatMap]
      induction first.children id with
      | nil => rfl
      | cons child rest others =>
          by_cases childLost : child ∈ gone
          · have nothing : (if first.isLive child then
                child :: first.descendantsTo depth child else []).filter (· ∉ gone) = [] := by
              rw [List.filter_eq_nil_iff]
              intro other member
              split at member
              · rcases List.mem_cons.mp member with rfl | deeper
                · simpa using childLost
                · simpa using removes.lost_below childLost deeper
              · simp at member
            rw [List.filter_cons_of_neg (by simpa using childLost), List.flatMap_cons, nothing]
            exact others
          · rw [List.filter_cons_of_pos (by simpa using childLost), List.flatMap_cons,
              List.flatMap_cons, others, removes.live child childLost]
            congr 1
            split
            · rw [ih childLost, List.filter_cons_of_pos (by simpa using childLost)]
            · rfl

theorem descendants (removes : Removes gone first second) {id : NodeId} (kept : id ∉ gone) :
    second.descendants id = (first.descendants id).filter (· ∉ gone) := by
  rw [Document.descendants, Document.descendants, removes.size]
  exact removes.descendantsTo first.size kept

theorem filter_isLive (removes : Removes gone first second) {ids : List NodeId}
    (live : ∀ id ∈ ids, first.isLive id = true) : ids.filter (· ∉ gone) = ids.filter second.isLive := by
  refine List.filter_congr fun id member => ?_
  by_cases lost : id ∈ gone
  · simp [lost, removes.dead id lost]
  · simp [lost, removes.live id lost, live id member]

theorem closest? (removes : Removes gone first second) (sound : first.Sound) {id : NodeId}
    (live : first.isLive id = true) (kept : id ∉ gone) (tags : List String) :
    second.closest? id tags = first.closest? id tags := by
  have same : ∀ id, second.isAny tags id = first.isAny tags id := fun id => by
    rw [isAny, isAny, removes.tag]
  rw [Document.closest?, Document.closest?, removes.size]
  generalize first.size + 1 = depth
  induction depth generalizing id with
  | zero => rfl
  | succ depth ih =>
      rw [closestTo?, closestTo?, same, removes.parent id kept]
      congr 1
      cases above : first.parent? id with
      | none => rfl
      | some parent =>
          have lists := sound.wellFormed.lists live above
          have parentLive := sound.wellFormed.parent_live lists
          refine ih parentLive fun lost => kept ?_
          exact removes.below parent lost id lists

theorem childByTag? (removes : Removes gone first second) {id : NodeId} (left : id ∉ gone) {tag : String}
    (kept : ∀ child, first.Lists id child → first.tag child = tag → child ∉ gone) :
    second.childByTag? id tag = first.childByTag? id tag := by
  rw [Document.childByTag?, Document.childByTag?, removes.children id left, List.find?_filter]
  rw [← List.head?_filter, ← List.head?_filter]
  refine congrArg List.head? (List.filter_congr fun child lists => ?_)
  rw [removes.tag]
  by_cases tagged : first.tag child = tag
  · simp [tagged, kept child lists tagged]
  · simp [tagged]

end Removes

theorem Rewritten.removes {first second : Document} (rewritten : Rewritten first second) :
    Removes [] first second := by
  refine .of_sameLinks rewritten.links rewritten.size rewritten.ages.root fun id => ?_
  by_cases bound : id < first.size
  · exact rewritten.ages.tag id bound
  · have beyond : first.size ≤ id := Nat.le_of_not_lt bound
    rw [Document.tag, Document.node_of_le_size (rewritten.size ▸ beyond), Document.tag,
      Document.node_of_le_size beyond]

variable {document : Document}

theorem Holds.ids_eq {context : Context} {outline : Outline}
    (holds : document.Holds (context.fill [outline])) :
    outline.ids = outline.id :: document.descendants outline.id := by
  rw [holds.descendants, ← Outline.node_eta outline]
  rfl

theorem Stands.mem_descendants (stands : document.Stands) {start id child : NodeId}
    (member : id = start ∨ id ∈ document.descendants start) (lists : document.Lists id child) :
    child ∈ document.descendants start := by
  have found := (stands.descendants start).2
  refine (found child).mpr ⟨stands.child_live lists, ?_⟩
  rcases member with rfl | below
  · exact .single lists
  · exact .tail ((found id).mp below).2 lists

theorem Sound.mem_descendants (sound : document.Sound) {start id child : NodeId}
    (member : id = start ∨ id ∈ document.descendants start) (lists : document.Lists id child) :
    child ∈ document.descendants start :=
  sound.stands.mem_descendants member lists

theorem Stands.parent_of_mem_descendants (stands : document.Stands) {start id child : NodeId}
    (below : child ∈ document.descendants start) (lists : document.Lists id child) :
    id = start ∨ id ∈ document.descendants start := by
  have found := (stands.descendants start).2
  obtain ⟨parent, path, last⟩ := TransGen.tail'_iff.mp ((found child).mp below).2
  have same : parent = id := Option.some.inj ((stands.above last).symm.trans (stands.above lists))
  subst same
  rcases Relation.reflTransGen_iff_eq_or_transGen.mp path with rfl | deeper
  · exact .inl rfl
  · exact .inr ((found parent).mpr ⟨stands.parent_live last, deeper⟩)

theorem Sound.parent_of_mem_descendants (sound : document.Sound) {start id child : NodeId}
    (below : child ∈ document.descendants start) (lists : document.Lists id child) :
    id = start ∨ id ∈ document.descendants start :=
  sound.stands.parent_of_mem_descendants below lists

/-- What is deleted with a live node is all that is found below it. -/
theorem Stands.removes_delete (stands : document.Stands) {id : NodeId}
    (live : document.isLive id = true) :
    Removes (id :: document.descendants id) document (document.delete id) := by
  obtain ⟨context, outline, rfl, holds⟩ := stands.exists_context live
  have top := (holds_fill_iff.mp holds).top.parent
  simp only at top
  have doomed := holds.ids_eq
  have ages := ages_delete document outline.id
  refine ⟨?_, ages.root, ?_, ?_, ?_, ?_, ?_, ?_⟩
  · rw [Document.delete, if_pos live, size_detach,
      size_foldl fun document id => size_modify document id _]
  · intro id
    rw [tag, toElement_delete holds, tag]
  · intro id member
    rw [isLive_delete holds, if_pos (doomed ▸ member)]
  · intro id kept
    rw [isLive_delete holds, if_neg (doomed ▸ kept)]
  · intro id kept
    rw [parent?_delete holds, if_neg]
    rintro rfl
    exact kept (List.mem_cons_self ..)
  · intro id kept
    -- Of the children of a node that is left, only the top of what is deleted goes.
    have others : ∀ child ∈ document.children id,
        child ∉ outline.id :: document.descendants outline.id ↔ child ≠ outline.id := by
      intro child lists
      rw [List.mem_cons, not_or, and_iff_left_iff_imp]
      intro _ below
      exact kept (List.mem_cons.mpr (stands.parent_of_mem_descendants below lists))
    rw [children_delete holds, if_neg (doomed ▸ kept)]
    split
    · apply List.filter_congr
      intro child lists
      rw [decide_eq_decide.mpr (others child lists), decide_not]
      rfl
    · rename_i notParent
      symm
      rw [List.filter_eq_self]
      intro child lists
      rw [decide_eq_true_eq, others child lists]
      rintro rfl
      exact notParent (top.symm.trans (stands.above lists))
  · intro id member child lists
    exact List.mem_cons_of_mem _ (stands.mem_descendants (List.mem_cons.mp member) lists)

theorem Sound.removes_delete (sound : document.Sound) {id : NodeId}
    (live : document.isLive id = true) :
    Removes (id :: document.descendants id) document (document.delete id) :=
  sound.stands.removes_delete live

theorem Removes.delete {first second : Document} {gone : List NodeId} (removes : Removes gone first second)
    (stands : second.Stands) {target : NodeId} (live : first.isLive target = true) :
    ∃ more, (∀ id, id ∈ more ↔ id ∈ gone ∨ id = target ∨ id ∈ first.descendants target) ∧
      Removes more first (second.delete target) := by
  by_cases already : target ∈ gone
  · refine ⟨gone, fun id => ⟨.inl, ?_⟩, ?_⟩
    · rintro (member | rfl | below)
      · exact member
      · exact already
      · exact removes.lost_below already below
    · rw [delete_of_dead (removes.dead target already)]
      exact removes
  · have alive := (removes.live target already).trans live
    refine ⟨_, fun id => ?_, removes.trans (stands.removes_delete alive)⟩
    rw [List.mem_append, List.mem_cons, removes.descendants already, List.mem_filter, decide_eq_true_eq]
    by_cases member : id ∈ gone
    · simp [member]
    · simp [member]

theorem Stands.node_delete_of_left (stands : document.Stands) {target id : NodeId}
    (left : id ∉ target :: document.descendants target) :
    (document.delete target).node id =
      { document.node id with children := (document.delete target).children id } := by
  by_cases live : document.isLive target = true
  · obtain ⟨context, outline, rfl, holds⟩ := stands.exists_context live
    have apart : id ≠ outline.id := fun same => left (same ▸ List.mem_cons_self ..)
    rw [← holds.ids_eq] at left
    rw [children_delete holds, node_delete holds, if_neg apart, if_neg left, if_neg left]
    rfl
  · rw [delete_of_dead (by simpa using live)]
    rfl

theorem Sound.node_delete_of_outside (sound : document.Sound) {id other : NodeId}
    (live : document.isLive id = true) (outside : other ∉ id :: document.descendants id)
    (notParent : document.parent? id ≠ some other) :
    (document.delete id).node other = document.node other := by
  obtain ⟨context, outline, rfl, holds⟩ := sound.exists_context live
  have top := (holds_fill_iff.mp holds).top.parent
  simp only at top
  have doomed := holds.ids_eq
  have apart : other ≠ outline.id := fun same => outside (same ▸ List.mem_cons_self ..)
  rw [node_delete holds, if_neg apart, doomed, if_neg outside, if_neg outside,
    if_neg (top ▸ notParent)]
  rfl

theorem Sound.toElement_delete (sound : document.Sound) (id other : NodeId) :
    ((document.delete id).node other).toElement = (document.node other).toElement := by
  by_cases live : document.isLive id = true
  · obtain ⟨context, outline, rfl, holds⟩ := sound.exists_context live
    exact Document.toElement_delete holds other
  · rw [delete_of_dead (by simpa using live)]

theorem Sound.descendants_eq (sound : document.Sound) {id : NodeId}
    (live : document.isLive id = true) :
    document.descendants id =
      (document.children id).flatMap fun child => child :: document.descendants child := by
  obtain ⟨context, outline, rfl, holds⟩ := sound.exists_context live
  have top := (holds_fill_iff.mp holds).top.children
  simp only at top
  rw [holds.descendants, top, Outline.idsAll_eq, List.flatMap_map]
  apply List.flatMap_congr
  intro child listed
  obtain ⟨before, after, parts⟩ := List.append_of_mem listed
  have inner : document.Holds ((Context.under context before after outline.id).fill [child]) := by
    rw [← Outline.node_eta outline, parts] at holds
    simpa [Context.fill] using holds
  rw [inner.descendants, ← Outline.node_eta child]
  rfl

theorem Sound.mem_descendants_iff (sound : document.Sound) {start id : NodeId} :
    id ∈ document.descendants start ↔
      ∃ child, document.Lists start child ∧ (id = child ∨ id ∈ document.descendants child) := by
  rw [(sound.descendants start).2, TransGen.head'_iff]
  constructor
  · rintro ⟨live, child, lists, path⟩
    refine ⟨child, lists, ?_⟩
    rcases Relation.reflTransGen_iff_eq_or_transGen.mp path with same | deeper
    · exact .inl same
    · exact .inr (((sound.descendants child).2 id).mpr ⟨live, deeper⟩)
  · rintro ⟨child, lists, rfl | deeper⟩
    · exact ⟨sound.wellFormed.child_live lists, id, lists, .refl⟩
    · have reached := ((sound.descendants child).2 id).mp deeper
      exact ⟨reached.1, child, lists, reached.2.to_reflTransGen⟩

theorem Stands.descendants_subset (stands : document.Stands) {outer inner : NodeId}
    (inside : inner ∈ document.descendants outer) :
    inner :: document.descendants inner ⊆ document.descendants outer := by
  intro id member
  rcases List.mem_cons.mp member with rfl | below
  · exact inside
  · have reached := ((stands.descendants inner).2 id).mp below
    have above := ((stands.descendants outer).2 inner).mp inside
    exact ((stands.descendants outer).2 id).mpr ⟨reached.1, above.2.trans reached.2⟩

theorem Sound.descendants_subset (sound : document.Sound) {outer inner : NodeId}
    (inside : inner ∈ document.descendants outer) :
    inner :: document.descendants inner ⊆ document.descendants outer :=
  sound.stands.descendants_subset inside

theorem Sound.node_delete_of_below (sound : document.Sound) {scope id other : NodeId}
    (below : id ∈ document.descendants scope) (notScope : other ≠ scope)
    (outside : other ∉ document.descendants scope) :
    (document.delete id).node other = document.node other := by
  have live := (((sound.descendants scope).2 id).mp below).1
  refine sound.node_delete_of_outside live (fun member => outside ?_) fun stands => ?_
  · exact sound.descendants_subset below member
  · have lists := sound.wellFormed.lists live stands
    rcases sound.parent_of_mem_descendants below lists with same | deeper
    · exact notScope same
    · exact outside deeper

theorem Holds.closest?_eq {forest : List Outline} (holds : document.Holds forest) {id : NodeId}
    (live : document.isLive id = true) (tags : List String) :
    document.closest? id tags =
      if document.isAny tags id then some id
      else (document.parent? id).bind fun parent => document.closest? parent tags := by
  obtain ⟨context, outline, rfl, rfl⟩ := exists_context (holds.mem_of_isLive id live)
  have top := (holds_fill_iff.mp holds).top.parent
  simp only at top
  rw [holds.closest?, top]
  congr 1
  cases context with
  | top before after => rfl
  | under outer before after parent =>
      have above : document.Holds (outer.fill [.node parent (before ++ [outline] ++ after)]) := holds
      have found := above.closest? tags
      rw [Outline.id_node] at found
      rw [Context.closest?, Context.parent?, Option.bind_some, found]

theorem Sound.closest?_eq (sound : document.Sound) {id : NodeId} (live : document.isLive id = true)
    (tags : List String) :
    document.closest? id tags =
      if document.isAny tags id then some id
      else (document.parent? id).bind fun parent => document.closest? parent tags := by
  obtain ⟨forest, holds⟩ := sound.forest
  exact holds.closest?_eq live tags

theorem Holds.closest?_of_below {forest : List Outline} (holds : document.Holds forest)
    {tags : List String} {outline : Outline} {parent : Option NodeId}
    (links : ∀ link ∈ outline.links parent, document.Has link)
    (none : ∀ id ∈ idsAll outline.children, document.isAny tags id = false) :
    ∀ id ∈ idsAll outline.children, document.closest? id tags = document.closest? outline.id tags := by
  induction outline using Outline.induction generalizing parent with
  | node id children ih =>
      intro other member
      obtain ⟨child, listed, inside⟩ := Outline.mem_idsAll.mp member
      have below := has_of_child links listed
      have here := below _ (top_mem_links child (some id))
      have untagged : ∀ inner ∈ child.ids, document.isAny tags inner = false := fun inner stands =>
        none inner (Outline.mem_idsAll.mpr ⟨child, listed, stands⟩)
      have step : document.closest? child.id tags = document.closest? id tags := by
        have parentHere : document.parent? child.id = some id := here.parent
        rw [holds.closest?_eq here.live, untagged _ child.id_mem_ids, parentHere]
        rfl
      rw [← Outline.node_eta child, Outline.ids] at inside untagged
      rcases List.mem_cons.mp inside with rfl | deeper
      · exact step
      · refine (ih child listed below (fun inner stands => ?_) other deeper).trans step
        exact untagged inner (List.mem_cons_of_mem _ stands)

theorem Sound.below_of_closest? (sound : document.Sound) {id found : NodeId}
    (live : document.isLive id = true) {tags : List String} (above : document.closest? id tags = some found) :
    document.isAny tags found = true ∧ document.isLive found = true ∧
      (id = found ∨ id ∈ document.descendants found) := by
  revert live
  refine closest?_induction (motive := fun id => document.isLive id = true →
    document.isAny tags found = true ∧ document.isLive found = true ∧
      (id = found ∨ id ∈ document.descendants found))
    (fun here live => ⟨here, live, .inl rfl⟩) (fun id parent _ stands inner live => ?_) above
  have lists := sound.wellFormed.lists live stands
  obtain ⟨tagged, foundLive, place⟩ := inner (sound.wellFormed.parent_live lists)
  exact ⟨tagged, foundLive, .inr (sound.mem_descendants place lists)⟩

theorem Sound.exists_closest? (sound : document.Sound) {start id : NodeId} {tags : List String}
    (tagged : document.isAny tags start = true) (below : id ∈ document.descendants start) :
    ∃ found, document.closest? id tags = some found ∧
      (found = start ∨ found ∈ document.descendants start) := by
  have path := (((sound.descendants start).2 id).mp below).2
  have step : ∀ {parent child}, document.Lists parent child →
      (parent = start ∨ parent ∈ document.descendants start) →
      (∃ found, document.closest? parent tags = some found ∧
        (found = start ∨ found ∈ document.descendants start)) →
      ∃ found, document.closest? child tags = some found ∧
        (found = start ∨ found ∈ document.descendants start) := by
    intro parent child lists place above
    rw [sound.closest?_eq (sound.wellFormed.child_live lists), sound.wellFormed.above lists]
    split
    · exact ⟨child, rfl, .inr (sound.mem_descendants place lists)⟩
    · exact above
  clear below
  induction path with
  | single lists =>
      refine step lists (.inl rfl) ⟨start, ?_, .inl rfl⟩
      rw [sound.closest?_eq (sound.wellFormed.parent_live lists), if_pos tagged]
  | tail path lists found =>
      have live := sound.wellFormed.parent_live lists
      exact step lists (.inr (((sound.descendants start).2 _).mpr ⟨live, path⟩)) found

theorem Sound.closest?_ne_none (sound : document.Sound) {start id : NodeId} {tags : List String}
    (tagged : document.isAny tags start = true) (below : id ∈ document.descendants start) :
    document.closest? id tags ≠ none := by
  obtain ⟨found, here, _⟩ := sound.exists_closest? tagged below
  rw [here]
  exact Option.some_ne_none found

theorem Sound.not_mem_descendants_self (sound : document.Sound) (id : NodeId) :
    id ∉ document.descendants id := by
  intro below
  have path := (((sound.descendants id).2 id).mp below).2
  exact sound.wellFormed.acyclic id
    (TransGen.mono (fun _ _ lists => sound.wellFormed.above lists) id id path)

theorem Sound.closest?_between (sound : document.Sound) {tags : List String} {id middle found : NodeId}
    (above : document.closest? id tags = some found) (inside : middle ∈ document.descendants found)
    (below : id ∈ document.descendants middle) : document.closest? middle tags = some found := by
  have live := (((sound.descendants middle).2 id).mp below).1
  have middleLive := (((sound.descendants found).2 middle).mp inside).1
  have tagged := (sound.below_of_closest? live above).1
  obtain ⟨near, here, rfl | deeper⟩ := sound.exists_closest? tagged inside
  · exact here
  · exfalso
    obtain ⟨nearTagged, _, place⟩ := sound.below_of_closest? middleLive here
    have belowNear : id ∈ document.descendants near := by
      rcases place with rfl | between
      · exact below
      · exact sound.descendants_subset between (List.mem_cons_of_mem _ below)
    obtain ⟨first, same, further⟩ := sound.exists_closest? nearTagged belowNear
    obtain rfl := Option.some.inj (same.symm.trans above)
    have cycle := sound.descendants_subset deeper (List.mem_cons.mpr further)
    exact sound.not_mem_descendants_self _ cycle

theorem Sound.not_mem_descendants_child (sound : document.Sound) {parent child : NodeId}
    (lists : document.Lists parent child) : parent ∉ child :: document.descendants child := by
  have below : child ∈ document.descendants parent :=
    sound.mem_descendants_iff.mpr ⟨child, lists, .inl rfl⟩
  exact fun member =>
    sound.not_mem_descendants_self parent (sound.descendants_subset below member)

theorem Sound.not_mem_descendants_sibling (sound : document.Sound) {parent child other : NodeId}
    (lists : document.Lists parent child) (beside : document.Lists parent other)
    (apart : other ≠ child) : other ∉ child :: document.descendants child := by
  intro member
  have below := (List.mem_cons.mp member).resolve_left apart
  have above := sound.parent_of_mem_descendants below beside
  exact sound.not_mem_descendants_child lists (List.mem_cons.mpr above)

theorem Sound.comparable (sound : document.Sound) {first second id : NodeId}
    (left : id = first ∨ id ∈ document.descendants first)
    (right : id = second ∨ id ∈ document.descendants second) :
    first = second ∨ first ∈ document.descendants second ∨ second ∈ document.descendants first := by
  have path : Relation.ReflTransGen document.Lists first id := by
    rcases left with rfl | below
    · exact .refl
    · exact (((sound.descendants first).2 id).mp below).2.to_reflTransGen
  clear left
  induction path with
  | refl => exact right.imp_right .inl
  | tail path lists ih =>
      rcases right with rfl | below
      · have live := sound.wellFormed.child_live lists
        exact .inr (.inr (((sound.descendants first).2 _).mpr ⟨live, .tail' path lists⟩))
      · exact ih (sound.parent_of_mem_descendants below lists)

/-- Nodes come before what is below them. -/
theorem Sound.pairwise_descendants (sound : document.Sound) {id : NodeId}
    (live : document.isLive id = true) :
    (id :: document.descendants id).Pairwise fun first second =>
      first ∉ document.descendants second := by
  induction size : (document.descendants id).length using Nat.strongRecOn generalizing id with
  | ind length ih =>
      rw [List.pairwise_cons]
      constructor
      · intro other below above
        exact sound.not_mem_descendants_self id
          (sound.descendants_subset below (List.mem_cons_of_mem _ above))
      · have wellFormed := sound.wellFormed
        rw [sound.descendants_eq live, List.pairwise_flatMap]
        constructor
        · intro child lists
          refine ih _ ?_ (wellFormed.child_live lists) rfl
          have inside : (child :: document.descendants child).Sublist (document.descendants id) := by
            rw [sound.descendants_eq live, List.flatMap_def]
            exact List.sublist_flatten_of_mem (List.mem_map_of_mem lists)
          have shorter := inside.length_le
          rw [List.length_cons] at shorter
          omega
        · refine (wellFormed.nodup id).imp_of_mem ?_
          intro child beside lists besideLists apart first left second right above
          have below : first ∈ document.descendants beside := by
            rcases List.mem_cons.mp right with rfl | deeper
            · exact above
            · exact sound.descendants_subset deeper (List.mem_cons_of_mem _ above)
          rcases sound.comparable (List.mem_cons.mp left) (.inr below) with same | inside | inside
          · exact apart same
          · exact sound.not_mem_descendants_sibling besideLists lists apart
              (List.mem_cons_of_mem _ inside)
          · exact sound.not_mem_descendants_sibling lists besideLists apart.symm
              (List.mem_cons_of_mem _ inside)

/-- All that is found below a node is found in one stretch below each node around it. -/
theorem Sound.descendants_infix (sound : document.Sound) {outer inner : NodeId}
    (inside : inner ∈ document.descendants outer) :
    inner :: document.descendants inner <:+: document.descendants outer := by
  have path := (((sound.descendants outer).2 inner).mp inside).2
  clear inside
  have step : ∀ {parent child}, document.Lists parent child →
      child :: document.descendants child <:+: document.descendants parent := by
    intro parent child lists
    rw [sound.descendants_eq (sound.wellFormed.parent_live lists), List.flatMap_def]
    exact List.infix_of_mem_flatten (List.mem_map_of_mem lists)
  induction path with
  | single lists => exact step lists
  | tail _ lists ih => exact (step lists).trans ((List.suffix_cons _ _).isInfix.trans ih)

theorem size_treeTo (document : Document) (depth : Nat) (id : NodeId) :
    (document.treeTo document.isLive depth id).size = (document.descendantsTo depth id).length + 1 := by
  induction depth generalizing id with
  | zero => rfl
  | succ depth ih =>
      rw [treeTo, Tree.size, descendantsTo]
      congr 1
      induction document.children id with
      | nil => rfl
      | cons child rest others =>
          rw [List.flatMap_cons, List.length_append, ← others]
          by_cases live : document.isLive child = true
          · rw [List.filter_cons_of_pos live, if_pos live, List.map_cons, Tree.sizeAll, ih,
              List.length_cons]
          · rw [List.filter_cons_of_neg live, if_neg live, List.length_nil, Nat.zero_add]

theorem Removes.writeNode {first second : Document} {gone : List NodeId}
    (removes : Removes gone first second) (sound : first.Sound) {id : NodeId}
    (kept : ∀ other ∈ id :: first.descendants id, other ∉ gone)
    (same : ∀ other ∈ id :: first.descendants id,
      (second.node other).toElement = (first.node other).toElement) :
    second.writeNode id = first.writeNode id := by
  have trees : ∀ depth, ∀ other ∈ id :: first.descendants id,
      second.treeTo (fun _ => true) depth other = first.treeTo (fun _ => true) depth other := by
    intro depth
    induction depth with
    | zero =>
        intro other member
        rw [treeTo, treeTo, same other member]
    | succ depth ih =>
        intro other member
        have inner : ∀ child ∈ first.children other, child ∈ id :: first.descendants id := fun child lists =>
          List.mem_cons_of_mem _ (sound.mem_descendants (List.mem_cons.mp member) lists)
        have children : second.children other = first.children other := by
          rw [removes.children other (kept other member), List.filter_eq_self]
          exact fun child lists => by simpa using kept child (inner child lists)
        rw [treeTo, treeTo, same other member, children, List.filter_true]
        congr 1
        exact List.map_congr_left fun child lists => ih child (inner child lists)
  rw [Document.writeNode, Document.writeNode, removes.live id (kept id (List.mem_cons_self ..)),
    linkedTree, linkedTree, removes.size, trees _ id (List.mem_cons_self ..)]

theorem Removes.size_liveTree_lt {first second : Document} {gone : List NodeId}
    (removes : Removes gone first second) {start id : NodeId} (kept : start ∉ gone) (lost : id ∈ gone)
    (below : id ∈ first.descendants start) :
    (second.liveTree start).size < (first.liveTree start).size := by
  have fewer : (second.descendants start).length < (first.descendants start).length := by
    rw [removes.descendants kept]
    exact List.length_filter_lt_length_iff_exists.mpr ⟨id, below, by simpa using lost⟩
  have sizes := fun document : Document => document.size_treeTo document.size start
  rw [liveTree, liveTree, sizes, sizes]
  exact Nat.succ_lt_succ fewer

end WordTemplate.Markup.Document
