import WordTemplate.Proofs.Filling.Triggering
import WordTemplate.Proofs.Filling.Visits

/-! Putting in values. The links of a document stay in agreement, and a text that is still there when all
values are in stands where it stood when its triggers were noted. -/

namespace WordTemplate

namespace Markup.Document

open Outline (idsAll)

structure Stays (bound : Nat) (first second : Document) : Prop where
  ages : Ages first second
  parent : ∀ id < bound, second.isLive id = true → second.parent? id = first.parent? id

namespace Stays

variable {bound : Nat} {first second third : Document}

theorem refl (bound : Nat) (document : Document) : Stays bound document document :=
  ⟨.refl document, fun _ _ _ => rfl⟩

theorem isLive (stays : Stays bound first second) (inside : bound ≤ first.size) {id : NodeId}
    (old : id < bound) (live : second.isLive id = true) : first.isLive id = true := by
  by_contra dead
  have gone := stays.ages.dead id (Nat.lt_of_lt_of_le old inside) (by simpa using dead)
  rw [gone] at live
  exact absurd live (by decide)

theorem trans (left : Stays bound first second) (right : Stays bound second third)
    (inside : bound ≤ first.size) : Stays bound first third := by
  refine ⟨left.ages.trans right.ages, fun id old live => ?_⟩
  have middle := right.isLive (Nat.le_trans inside left.ages.size_le) old live
  rw [right.parent id old live, left.parent id old middle]

theorem narrow (stays : Stays bound first second) {less : Nat} (smaller : less ≤ bound) :
    Stays less first second :=
  ⟨stays.ages, fun id old => stays.parent id (Nat.lt_of_lt_of_le old smaller)⟩

theorem of_rewritten (rewritten : Rewritten first second) : Stays bound first second :=
  ⟨rewritten.ages, fun id _ _ => rewritten.links.parent? id⟩

theorem push (document : Document) (nodes : List Node) :
    Stays document.size document (document.push nodes).1 := by
  refine ⟨ages_push document nodes, fun id old _ => ?_⟩
  rw [parent?, node_push_of_lt nodes old]
  rfl

theorem graft (document source : Document) (id : NodeId) :
    Stays document.size document (document.graft source id).1 := by
  refine ⟨ages_graft document source id, fun other old _ => ?_⟩
  have apart : other ≠ document.size := Nat.ne_of_lt old
  rw [Document.graft, parent?, node_modify, if_neg fun both => apart both.1, node_push_of_lt _ old]
  rfl

theorem insertAfter (document : Document) (anchor : NodeId) {id : NodeId} (new : bound ≤ id) :
    Stays bound document (document.insertAfter anchor id).1 := by
  refine ⟨ages_insertAfter document anchor id, fun other old _ => ?_⟩
  have apart : other ≠ id := Nat.ne_of_lt (Nat.lt_of_lt_of_le old new)
  rw [Document.insertAfter]
  rcases document.insertBeside_cases 1 anchor id with same | ⟨parent, position, same⟩
  · rw [same, parent?_detach, if_neg apart]
  · rw [same, parent?_link_of_ne apart, parent?_detach, if_neg apart]

theorem delete {document : Document} (sound : document.Sound) (id : NodeId) :
    Stays bound document (document.delete id) := by
  refine ⟨ages_delete document id, fun other _ live => ?_⟩
  by_cases alive : document.isLive id = true
  · have removes := sound.removes_delete alive
    refine removes.parent other fun lost => ?_
    rw [removes.dead other lost] at live
    exact absurd live (by decide)
  · rw [delete_of_dead (by simpa using alive)]

end Stays

end Markup.Document

namespace Filling

open Markup
open Markup.Document (Stays Rewritten)
open Outline (idsAll)

variable {document : Document}

theorem rewritten_preserveSpace (document : Document) (id : NodeId) :
    Rewritten document (Wordml.preserveSpace document id) := by
  rw [Wordml.preserveSpace]
  split
  · refine Document.rewritten_modify document id ?_ ?_ ?_ ?_
    all_goals exact fun _ => rfl
  · exact .refl document

theorem rewritten_setText (document : Document) (id : NodeId) (content : String) :
    Rewritten document (document.setText id content) := by
  refine Document.rewritten_modify document id ?_ ?_ ?_ ?_
  all_goals exact fun _ => rfl

theorem rewritten_fillAttributes (document : Document) (params : Params) (id : NodeId) :
    Rewritten document (fillAttributes document params id) := by
  refine Document.rewritten_modify document id ?_ ?_ ?_ ?_
  all_goals exact fun _ => rfl

theorem sound_graftAll (sound : document.Sound) {source : Document} (other : source.Sound)
    (ids : List NodeId) : (document.graftAll source ids).1.Sound := by
  induction ids generalizing document with
  | nil => exact sound
  | cons id rest ih => exact ih (sound.graft other id)

theorem stays_graftAll (document source : Document) (ids : List NodeId) :
    Stays document.size document (document.graftAll source ids).1 ∧
      ∀ id ∈ (document.graftAll source ids).2, document.size ≤ id := by
  induction ids generalizing document with
  | nil => exact ⟨.refl _ _, by simp [Document.graftAll]⟩
  | cons id rest ih =>
      have grafted := Stays.graft document source id
      obtain ⟨later, new⟩ := ih (document.graft source id).1
      refine ⟨grafted.trans (later.narrow grafted.ages.size_le) (Nat.le_refl _), ?_⟩
      refine List.forall_mem_cons.mpr ⟨Nat.le_refl _, fun other member => ?_⟩
      exact Nat.le_trans grafted.ages.size_le (new other member)

theorem sound_insertNodes (sound : document.Sound) (insert : Insert) :
    (insertNodes document insert).1.Sound := by
  cases insert with
  | text content =>
      rw [insertNodes]
      split
      · exact sound
      · have created := sound.push false (.node { tag := Wordml.text } [])
        exact ((rewritten_setText _ _ content).trans (rewritten_preserveSpace _ _)).sound created
  | markup content =>
      rw [insertNodes]
      split
      · rename_i fragment parsed
        exact sound_graftAll sound (Document.Opened.parseFragment parsed).sound _
      · exact sound

theorem stays_insertNodes (document : Document) (insert : Insert) :
    Stays document.size document (insertNodes document insert).1 ∧
      ∀ id ∈ (insertNodes document insert).2, document.size ≤ id := by
  cases insert with
  | text content =>
      rw [insertNodes]
      split
      · exact ⟨.refl _ _, by simp⟩
      · refine ⟨?_, by simp [Document.createElement, Document.push]⟩
        exact (Stays.push document [{ tag := Wordml.text }]).trans
          (.of_rewritten ((rewritten_setText _ _ content).trans (rewritten_preserveSpace _ _)))
          (Nat.le_refl _)
  | markup content =>
      rw [insertNodes]
      split
      · exact stays_graftAll document _ _
      · exact ⟨.refl _ _, by simp⟩

/-- A tree from beside an anchor is put behind it. -/
theorem sound_insertAfter {tree : Outline} {rest forest : List Outline} (sound : document.Sound)
    (holds : document.Holds (tree :: (rest ++ forest))) {anchor : NodeId}
    (inside : anchor ∈ idsAll forest) :
    (document.insertAfter anchor tree.id).1.Sound ∧
      ∃ forest', (document.insertAfter anchor tree.id).1.Holds (rest ++ forest') ∧
        tree.id ∈ idsAll forest' := by
  have beside : document.Holds ((Context.top [] (rest ++ forest)).fill [tree]) := holds
  have split := Document.holds_fill_iff.mp beside
  have around : anchor ∈ (Context.top [] (rest ++ forest)).ids := by
    simp [Context.ids, Context.frame, Context.rim, Outline.linksAll, Outline.linksAll_append,
      Outline.map_id_linksAll, inside]
  have live : document.isLive tree.id = true := split.top.live
  refine ⟨sound.insertBeside (Nat.le_refl 1) live (split.isLive_of_mem_ids around) fun below => ?_, ?_⟩
  · refine split.not_mem_ids around ?_
    rw [beside.descendants] at below
    rw [← Outline.node_eta tree, Outline.ids]
    exact List.mem_cons_of_mem _ below
  obtain ⟨context, outline, rfl, rfl⟩ := Document.exists_context inside
  cases context with
  | top before after =>
      -- An anchor without parent has no siblings, and the tree stays beside it.
      have free : document.parent? tree.id = none := split.top.parent
      have atAnchor : document.Holds
          ((Context.top (tree :: rest ++ before) after).fill [outline]) := by
        simpa [Context.fill] using holds
      have alone : document.parent? outline.id = none :=
        (Document.holds_fill_iff.mp atAnchor).top.parent
      have same : (document.insertAfter outline.id tree.id).1 = document := by
        rw [Document.insertAfter, Document.insertBeside, Document.detach, free]
        simp only [alone]
      refine ⟨tree :: (Context.top before after).fill [outline], ?_, ?_⟩
      · rw [same]
        exact holds.perm List.perm_middle.symm
      · rw [Outline.idsAll, List.mem_append]
        exact .inl tree.id_mem_ids
  | under outer before after parent =>
      have arranged : document.Holds
          (tree :: (Context.under (outer.behind rest) before after parent).fill [outline]) := by
        simpa [Context.fill, Context.fill_behind] using holds
      have inserted := Document.Holds.insertAfter arranged
      refine ⟨(Context.under outer before after parent).fill [outline, tree], ?_, ?_⟩
      · simpa [Context.fill, Context.fill_behind] using inserted
      · rw [(Document.idsAll_fill _ _).mem_iff, List.mem_append, Outline.mem_idsAll]
        exact .inr ⟨tree, by simp, tree.id_mem_ids⟩

/-- Trees from beside an anchor are put behind it, one after the other. -/
theorem sound_placeAfter {trees forest : List Outline} (sound : document.Sound)
    (holds : document.Holds (trees ++ forest)) {anchor : NodeId} (inside : anchor ∈ idsAll forest) :
    (placeAfter document anchor (trees.map Outline.id)).1.Sound ∧
      ∃ forest', (placeAfter document anchor (trees.map Outline.id)).1.Holds forest' ∧
        (placeAfter document anchor (trees.map Outline.id)).2 ∈ idsAll forest' := by
  -- The tree that has been put is the anchor of the next one.
  induction trees generalizing document forest anchor with
  | nil => exact ⟨sound, forest, holds, inside⟩
  | cons tree rest ih =>
      obtain ⟨next, forest', placed, member⟩ := sound_insertAfter sound holds inside
      exact ih next placed member

theorem stays_placeAfter {bound : Nat} (document : Document) (anchor : NodeId) {ids : List NodeId}
    (inside : bound ≤ document.size) (new : ∀ id ∈ ids, bound ≤ id) :
    Stays bound document (placeAfter document anchor ids).1 := by
  induction ids generalizing document anchor with
  | nil => exact .refl _ _
  | cons id rest ih =>
      obtain ⟨here, others⟩ := List.forall_mem_cons.mp new
      have placed := Stays.insertAfter document anchor here
      exact placed.trans (ih _ id (Nat.le_trans inside placed.ages.size_le) others) inside

theorem sound_spliceAfter {forest : List Outline} (sound : document.Sound)
    (holds : document.Holds forest) {anchor : NodeId} (inside : anchor ∈ idsAll forest)
    (inserts : List Insert) : (spliceAfter document anchor inserts).Sound := by
  induction inserts generalizing document anchor forest with
  | nil => exact sound
  | cons insert rest ih =>
      obtain ⟨trees, ids, created⟩ := holds_insertNodes holds insert
      obtain ⟨placed, forest', arranged, member⟩ :=
        sound_placeAfter (sound_insertNodes sound insert) created inside
      rw [ids] at placed arranged member
      exact ih placed arranged member

theorem stays_spliceAfter {bound : Nat} (document : Document) (anchor : NodeId)
    (inserts : List Insert) (inside : bound ≤ document.size) :
    Stays bound document (spliceAfter document anchor inserts) := by
  induction inserts generalizing document anchor with
  | nil => exact .refl _ _
  | cons insert rest ih =>
      obtain ⟨created, new⟩ := stays_insertNodes document insert
      have room := Nat.le_trans inside created.ages.size_le
      have placed := stays_placeAfter (insertNodes document insert).1 anchor room
        fun id member => Nat.le_trans inside (new id member)
      exact ((created.narrow inside).trans placed inside).trans
        (ih _ _ (Nat.le_trans room placed.ages.size_le)) inside

theorem sound_fillText (sound : document.Sound) (params : Params) {id : NodeId}
    (live : document.isLive id = true) : (fillText document params id).Sound := by
  rw [fillText]
  simp only
  split
  · split
    · obtain ⟨forest, holds⟩ := sound.forest
      exact (sound_spliceAfter sound holds (holds.mem_of_isLive id live) _).delete id
    · exact ((rewritten_setText _ _ _).trans (rewritten_preserveSpace _ _)).sound sound
  · exact sound

theorem stays_fillText (sound : document.Sound) (params : Params) {id : NodeId}
    (live : document.isLive id = true) :
    Stays document.size document (fillText document params id) := by
  rw [fillText]
  simp only
  split
  · split
    · obtain ⟨forest, holds⟩ := sound.forest
      have spliced := sound_spliceAfter sound holds (holds.mem_of_isLive id live)
      exact (stays_spliceAfter document id _ (Nat.le_refl _)).trans (.delete (spliced _) id)
        (Nat.le_refl _)
    · exact .of_rewritten ((rewritten_setText _ _ _).trans (rewritten_preserveSpace _ _))
  · exact .refl _ _

end Filling

end WordTemplate
