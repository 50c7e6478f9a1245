import WordTemplate.Proofs.Markup.Removal
import WordTemplate.Proofs.Wordml.Fusing

/-! The texts of paragraphs, and what becomes of them when a text is taken into the one before it. -/

namespace WordTemplate.Wordml

open Markup
open Markup.Document (Removes SameLinks)

/-- Texts hold no elements, and run properties no texts and paragraphs. -/
structure Flat (document : Document) : Prop where
  texts : ∀ id, document.tag id = text → document.children id = []
  properties : ∀ id, document.tag id = runProperties → ∀ other ∈ document.descendants id,
    document.tag other ≠ text ∧ document.tag other ≠ paragraph

structure Plain (document : Document) : Prop extends Flat document where
  sound : document.Sound

theorem lt_size_of_tag {document : Document} {id : NodeId} (named : document.tag id ≠ "") :
    id < document.size := by
  by_contra beyond
  exact named (by rw [Document.tag, Document.node_of_le_size (Nat.le_of_not_lt beyond)]; rfl)

theorem bare_of_lt_size {document : Document}
    (texts : ∀ id < document.size, document.tag id = text → document.children id = []) (id : NodeId)
    (isText : document.tag id = text) : document.children id = [] :=
  texts id (lt_size_of_tag (isText ▸ by decide)) isText

theorem flat_of_lt_size {document : Document}
    (texts : ∀ id < document.size, document.tag id = text → document.children id = [])
    (properties : ∀ id < document.size, document.tag id = runProperties →
      ∀ other ∈ document.descendants id, document.tag other ≠ text ∧ document.tag other ≠ paragraph) :
    Flat document :=
  ⟨bare_of_lt_size texts,
    fun id isProperties => properties id (lt_size_of_tag (isProperties ▸ by decide)) isProperties⟩

/-- What the texts of a paragraph say, one by one. -/
def readings (document : Document) (id : NodeId) : List String :=
  (ownTexts document id).map document.text

/-- The texts of a paragraph with what they say. -/
def quoted (document : Document) (id : NodeId) : List (NodeId × String) :=
  (ownTexts document id).map fun found => (found, document.text found)

theorem map_snd_quoted (document : Document) (id : NodeId) :
    (quoted document id).map Prod.snd = readings document id :=
  List.map_map ..

structure IsParagraph (document : Document) (id : NodeId) : Prop where
  live : document.isLive id = true
  tag : document.tag id = paragraph

section Below

variable {document : Document}

theorem mem_ownTexts {id found : NodeId} :
    found ∈ ownTexts document id ↔ found ∈ document.descendants id ∧ document.tag found = text ∧
      document.closest? found [paragraph] = some id := by
  simp [ownTexts, Document.findAll, Document.isAny, and_comm]

theorem nodup_ownTexts (sound : document.Sound) (id : NodeId) : (ownTexts document id).Nodup :=
  ((sound.descendants id).1.filter _).filter _

theorem eq_of_mem_ownTexts {first second found : NodeId} (left : found ∈ ownTexts document first)
    (right : found ∈ ownTexts document second) : first = second := by
  have above := (mem_ownTexts.mp left).2.2
  rw [(mem_ownTexts.mp right).2.2] at above
  exact (Option.some.inj above).symm

theorem mem_paragraphsFrom {scope id : NodeId} :
    id ∈ paragraphsFrom document scope ↔
      (id = scope ∨ id ∈ document.descendants scope) ∧ document.tag id = paragraph := by
  rw [paragraphsFrom, List.mem_append, Document.findAll, List.mem_filter, Document.isAny]
  by_cases here : document.tag scope = paragraph
  · constructor
    · rintro (own | ⟨below, isParagraph⟩)
      · rw [if_pos here, List.mem_singleton] at own
        exact ⟨.inl own, own ▸ here⟩
      · exact ⟨.inr below, by simpa using isParagraph⟩
    · rintro ⟨rfl | below, isParagraph⟩
      · exact .inl (by simp [here])
      · exact .inr ⟨below, by simpa using isParagraph⟩
  · constructor
    · rintro (own | ⟨below, isParagraph⟩)
      · simp [here] at own
      · exact ⟨.inr below, by simpa using isParagraph⟩
    · rintro ⟨rfl | below, isParagraph⟩
      · exact absurd isParagraph here
      · exact .inr ⟨below, by simpa using isParagraph⟩

theorem nodup_paragraphsFrom (sound : document.Sound) (scope : NodeId) :
    (paragraphsFrom document scope).Nodup := by
  rw [paragraphsFrom, Document.findAll]
  have below := (sound.descendants scope).1.filter (document.isAny [paragraph])
  split
  · refine List.nodup_append.mpr ⟨List.nodup_singleton scope, below, ?_⟩
    rintro _ own other member rfl
    rw [List.mem_singleton.mp own] at member
    exact sound.not_mem_descendants_self scope (List.mem_filter.mp member).1
  · simpa using below

theorem isParagraph_of_mem (sound : document.Sound) {scope id : NodeId}
    (live : document.isLive scope = true) (member : id ∈ paragraphsFrom document scope) :
    IsParagraph document id := by
  obtain ⟨place, tag⟩ := mem_paragraphsFrom.mp member
  refine ⟨?_, tag⟩
  rcases place with rfl | below
  · exact live
  · exact (((sound.descendants scope).2 id).mp below).1

theorem deleteText_of_dead (sound : document.Sound) {id : NodeId}
    (dead : document.isLive id = false) : deleteText document id = document := by
  rw [deleteText]
  simp only [Document.delete_of_dead dead]
  cases above : document.parent? id with
  | none => rfl
  | some parent =>
      have parentDead : document.isLive parent = false := by
        cases sound.rests id dead with
        | free none => rw [above] at none; simp at none
        | under stands _ dead _ => rwa [← Option.some.inj (above.symm.trans stands)] at dead
      simp only [Document.delete_of_dead parentDead, ite_self]

end Below

section Removing

variable {first second : Document} {gone : List NodeId}

theorem ownTexts_removes (removes : Removes gone first second) (sound : first.Sound) {id : NodeId}
    (kept : id ∉ gone) : ownTexts second id = (ownTexts first id).filter (· ∉ gone) := by
  rw [ownTexts, ownTexts, Document.findAll, Document.findAll, removes.descendants kept]
  simp only [List.filter_filter]
  apply List.filter_congr
  intro found below
  by_cases lost : found ∈ gone
  · simp [lost]
  · have live := ((sound.descendants id).2 found).mp below
    rw [removes.closest? sound live.1 lost]
    simp [lost, Document.isAny, removes.tag]

theorem paragraphsFrom_removes (removes : Removes gone first second) {id : NodeId} (kept : id ∉ gone)
    (others : ∀ id ∈ gone, first.tag id ≠ paragraph) :
    paragraphsFrom second id = paragraphsFrom first id := by
  rw [paragraphsFrom, paragraphsFrom, Document.findAll, Document.findAll, removes.descendants kept,
    removes.tag]
  simp only [List.filter_filter]
  congr 1
  apply List.filter_congr
  intro found _
  by_cases lost : found ∈ gone
  · simp [lost, Document.isAny, removes.tag, others found lost]
  · simp [lost, Document.isAny, removes.tag]

theorem Plain.removes (plain : Plain first) (removes : Removes gone first second)
    (sound : second.Sound) : Plain second := by
  refine ⟨⟨fun id isText => ?_, fun id isProperties other below => ?_⟩, sound⟩
  · by_cases lost : id ∈ gone
    · exact sound.wellFormed.bare (removes.dead id lost)
    · rw [removes.children id lost, plain.texts id (removes.tag id ▸ isText)]
      rfl
  · by_cases lost : id ∈ gone
    · have bare := sound.wellFormed.bare (removes.dead id lost)
      have reached := ((sound.descendants id).2 other).mp below
      obtain ⟨child, lists, _⟩ := Relation.TransGen.head'_iff.mp reached.2
      rw [Document.Lists, bare] at lists
      simp at lists
    · rw [removes.descendants lost] at below
      rw [removes.tag]
      exact plain.properties id (removes.tag id ▸ isProperties) other (List.mem_filter.mp below).1

end Removing

/-- What mending the texts of a paragraph does to a document: some nodes below the paragraph go, no
paragraph among them, and in each paragraph neighbouring texts become one. -/
structure Mends (scope : NodeId) (gone : List NodeId) (first second : Document) : Prop where
  plain : Plain second
  removes : Removes gone first second
  below : ∀ id ∈ gone, id ∈ first.descendants scope
  others : ∀ id ∈ gone, first.tag id ≠ paragraph
  gathered : ∀ id, IsParagraph first id → Gathered (quoted first id) (quoted second id)
  frame : ∀ id, id ≠ scope → id ∉ first.descendants scope → second.node id = first.node id

namespace Mends

variable {scope : NodeId} {gone more : List NodeId} {first second third : Document}

theorem refl (scope : NodeId) (plain : Plain first) : Mends scope [] first first :=
  ⟨plain, .of_sameLinks (.refl first) rfl rfl fun _ => rfl, by simp, by simp, fun _ _ => .refl,
    fun _ _ _ => rfl⟩

theorem fused (mends : Mends scope gone first second) (id : NodeId) (isParagraph : IsParagraph first id) :
    Fused (readings first id) (readings second id) := by
  rw [← map_snd_quoted, ← map_snd_quoted]
  exact (mends.gathered id isParagraph).fused

theorem kept (mends : Mends scope gone first second) {id : NodeId} (isParagraph : IsParagraph first id) :
    id ∉ gone :=
  fun lost => mends.others id lost isParagraph.tag

theorem scope_kept (mends : Mends scope gone first second) (sound : first.Sound) : scope ∉ gone :=
  fun lost => sound.not_mem_descendants_self scope (mends.below scope lost)

theorem isParagraph (mends : Mends scope gone first second) {id : NodeId}
    (isParagraph : IsParagraph first id) : IsParagraph second id := by
  refine ⟨?_, (mends.removes.tag id).trans isParagraph.tag⟩
  rw [mends.removes.live id (mends.kept isParagraph)]
  exact isParagraph.live

theorem mem_descendants (mends : Mends scope gone first second) {start id : NodeId}
    (kept : start ∉ gone) (below : id ∈ second.descendants start) : id ∈ first.descendants start := by
  rw [mends.removes.descendants kept] at below
  exact (List.mem_filter.mp below).1

theorem live_scope (mends : Mends scope gone first second) (sound : first.Sound) :
    second.isLive scope = first.isLive scope :=
  mends.removes.live scope (mends.scope_kept sound)

theorem paragraphsFrom_eq (mends : Mends scope gone first second) {id : NodeId} (kept : id ∉ gone) :
    paragraphsFrom second id = paragraphsFrom first id :=
  paragraphsFrom_removes mends.removes kept mends.others

theorem still_below (mends : Mends scope gone first second) {start id : NodeId}
    (kept : start ∉ gone) (left : id ∉ gone) (below : id ∈ first.descendants start) :
    id ∈ second.descendants start := by
  rw [mends.removes.descendants kept, List.mem_filter]
  exact ⟨below, by simpa using left⟩

theorem trans (left : Mends scope gone first second) (right : Mends scope more second third)
    (sound : first.Sound) : Mends scope (gone ++ more) first third where
  plain := right.plain
  removes := left.removes.trans right.removes
  below := by
    intro id member
    rcases List.mem_append.mp member with early | late
    · exact left.below id early
    · exact left.mem_descendants (left.scope_kept sound) (right.below id late)
  others := by
    intro id member
    rcases List.mem_append.mp member with early | late
    · exact left.others id early
    · rw [← left.removes.tag]
      exact right.others id late
  gathered := fun id here =>
    (left.gathered id here).trans (right.gathered id (left.isParagraph here))
  frame := by
    intro id apart outside
    rw [right.frame id apart, left.frame id apart outside]
    exact fun below => outside (left.mem_descendants (left.scope_kept sound) below)

theorem widen (mends : Mends scope gone first second) (sound : first.Sound) {outer : NodeId}
    (inside : scope = outer ∨ scope ∈ first.descendants outer) : Mends outer gone first second := by
  rcases inside with rfl | inside
  · exact mends
  · have through : ∀ id ∈ first.descendants scope, id ∈ first.descendants outer := by
      exact fun id below => sound.descendants_subset inside (List.mem_cons_of_mem _ below)
    refine ⟨mends.plain, mends.removes, fun id lost => through id (mends.below id lost),
      mends.others, mends.gathered, fun id apart outside => mends.frame id ?_ ?_⟩
    · rintro rfl
      exact outside inside
    · exact fun below => outside (through id below)

end Mends

def Mended (scope : NodeId) (first : Document) (result : Document × Nat) : Prop :=
  ∃ gone, Mends scope gone first result.1 ∧ (result.2 = 0 → result.1 = first) ∧
    (result.2 ≠ 0 → gone ≠ [])

namespace Mended

variable {scope : NodeId} {first second : Document}

theorem unchanged (scope : NodeId) (plain : Plain first) : Mended scope first (first, 0) :=
  ⟨[], .refl scope plain, fun _ => rfl, fun some => absurd rfl some⟩

theorem of_mends {gone : List NodeId} {count : Nat} (mends : Mends scope gone first second)
    (removed : gone ≠ []) (counted : count ≠ 0) : Mended scope first (second, count) :=
  ⟨gone, mends, fun none => absurd none counted, fun _ => removed⟩

theorem trans {third : Document} {count more : Nat} (left : Mended scope first (second, count))
    (right : Mended scope second (third, more)) (sound : first.Sound) :
    Mended scope first (third, count + more) := by
  obtain ⟨gone, mends, none, some⟩ := left
  obtain ⟨gone', mends', none', some'⟩ := right
  refine ⟨gone ++ gone', mends.trans mends' sound, fun sum => ?_, fun sum => ?_⟩
  · obtain ⟨zero, zero'⟩ := Nat.add_eq_zero_iff.mp sum
    exact (none' zero').trans (none zero)
  · intro nothing
    obtain ⟨bare, bare'⟩ := List.append_eq_nil_iff.mp nothing
    apply sum
    rw [Nat.add_eq_zero_iff]
    exact ⟨not_not.mp fun zero => some zero bare, not_not.mp fun zero => some' zero bare'⟩

theorem widen {result : Document × Nat} (mended : Mended scope first result) (sound : first.Sound)
    {outer : NodeId} (inside : scope = outer ∨ scope ∈ first.descendants outer) :
    Mended outer first result := by
  obtain ⟨gone, mends, counted⟩ := mended
  exact ⟨gone, mends.widen sound inside, counted⟩

end Mended

theorem filter_ne_of_nodup {front back : List NodeId} {target source : NodeId}
    (nodup : (front ++ target :: source :: back).Nodup) :
    (front ++ target :: source :: back).filter (· ≠ source) = front ++ target :: back := by
  have notBefore : source ∉ front ++ [target] := by
    rw [← List.singleton_append, ← List.append_assoc] at nodup
    exact fun member => (List.nodup_append.mp nodup).2.2 source member source (by simp) rfl
  have erased := nodup.erase_eq_filter source
  rw [← List.singleton_append, ← List.append_assoc, List.erase_append_right _ notBefore,
    List.erase_cons_head, List.append_assoc, List.append_assoc, List.singleton_append] at erased
  rw [erased]
  refine List.filter_congr fun id _ => ?_
  rw [bne, decide_not, beq_eq_decide]

/-- A text is taken into the one before it in its paragraph, and goes with nodes that hold no other. -/
theorem mends_absorb {first second : Document} {gone : List NodeId} (plain : Plain first)
    (sound : second.Sound) (removes : Removes gone first second) {scope target source : NodeId}
    (below : ∀ id ∈ gone, id ∈ first.descendants scope)
    (others : ∀ id ∈ gone, first.tag id ≠ paragraph) (lost : source ∈ gone)
    (sole : ∀ id ∈ gone, first.tag id = text → id = source) {front back : List NodeId}
    (neighbours : ownTexts first scope = front ++ target :: source :: back)
    (isParagraph : IsParagraph first scope)
    (joined : second.text target = first.text target ++ first.text source)
    (same : ∀ id, id ≠ target → second.text id = first.text id)
    (frame : ∀ id, id ≠ scope → id ∉ first.descendants scope → second.node id = first.node id) :
    Mends scope gone first second ∧ ownTexts second scope = front ++ target :: back := by
  have nodup := nodup_ownTexts plain.sound scope
  rw [neighbours] at nodup
  -- Of the texts of a paragraph only the one that is taken in goes.
  have texts : ∀ id, IsParagraph first id →
      ownTexts second id = (ownTexts first id).filter (· ≠ source) := by
    intro id here
    rw [ownTexts_removes removes plain.sound fun lost => others id lost here.tag]
    apply List.filter_congr
    intro found member
    have isText := (mem_ownTexts.mp member).2.1
    have alike : found ∉ gone ↔ found ≠ source :=
      ⟨fun kept same => kept (same ▸ lost), fun apart gone => apart (sole found gone isText)⟩
    exact decide_eq_decide.mpr alike
  have listed : ∀ id, id ∈ front ∨ id = target ∨ id = source ∨ id ∈ back →
      id ∈ ownTexts first scope := by
    intro id place
    rw [neighbours]
    simpa using place
  obtain ⟨_, nodupBack, apart⟩ := List.nodup_append.mp nodup
  rw [List.nodup_cons, List.nodup_cons, List.mem_cons, not_or] at nodupBack
  have notInFront : ∀ id ∈ front, id ≠ target ∧ id ≠ source := fun id member =>
    ⟨apart id member target (by simp), apart id member source (by simp)⟩
  have notInBack : ∀ id ∈ back, id ≠ target ∧ id ≠ source := fun id member =>
    ⟨fun here => nodupBack.1.2 (here ▸ member), fun here => nodupBack.2.1 (here ▸ member)⟩
  have own : ownTexts second scope = front ++ target :: back := by
    rw [texts scope isParagraph, neighbours]
    exact filter_ne_of_nodup nodup
  refine ⟨⟨plain.removes removes sound, removes, below, others, fun id here => ?_, frame⟩, own⟩
  by_cases atScope : id = scope
  · subst atScope
    have sameTexts : ∀ ids : List NodeId, (∀ id ∈ ids, id ≠ target ∧ id ≠ source) →
        ids.map (fun found => (found, second.text found)) =
          ids.map fun found => (found, first.text found) :=
      fun ids other => List.map_congr_left fun id member => by rw [same id (other id member).1]
    rw [quoted, quoted, own, neighbours, List.map_append, List.map_append, sameTexts front notInFront,
      List.map_cons, List.map_cons, List.map_cons, sameTexts back notInBack, joined]
    exact Relation.ReflTransGen.single (.behind _ (.here ..))
  · have foreign : ∀ found ∈ ownTexts first id, found ≠ target ∧ found ≠ source := by
      intro found member
      constructor
      · rintro rfl
        exact atScope (eq_of_mem_ownTexts member (listed _ (.inr (.inl rfl))))
      · rintro rfl
        exact atScope (eq_of_mem_ownTexts member (listed _ (.inr (.inr (.inl rfl)))))
    have kept : ownTexts second id = ownTexts first id := by
      rw [texts id here, List.filter_eq_self]
      exact fun found member => by simpa using (foreign found member).2
    have unchanged : quoted second id = quoted first id := by
      rw [quoted, quoted, kept]
      exact List.map_congr_left fun found member => by rw [same found (foreign found member).1]
    rw [unchanged]

theorem mends_quiet {first second : Document} {gone : List NodeId} (plain : Plain first)
    (sound : second.Sound) (removes : Removes gone first second) {scope : NodeId}
    (below : ∀ id ∈ gone, id ∈ first.descendants scope)
    (others : ∀ id ∈ gone, first.tag id ≠ paragraph ∧ first.tag id ≠ text)
    (isParagraph : IsParagraph first scope)
    (same : ∀ id, second.text id = first.text id)
    (frame : ∀ id, id ≠ scope → id ∉ first.descendants scope → second.node id = first.node id) :
    Mends scope gone first second ∧ ownTexts second scope = ownTexts first scope := by
  have texts : ∀ id, IsParagraph first id → ownTexts second id = ownTexts first id := by
    intro id here
    rw [ownTexts_removes removes plain.sound fun lost => (others id lost).1 here.tag,
      List.filter_eq_self]
    intro found member
    rw [decide_eq_true_eq]
    exact fun lost => (others found lost).2 (mem_ownTexts.mp member).2.1
  refine ⟨⟨plain.removes removes sound, removes, below, fun id lost => (others id lost).1,
    fun id here => ?_, frame⟩, texts scope isParagraph⟩
  have unchanged : quoted second id = quoted first id := by
    rw [quoted, quoted, texts id here]
    exact List.map_congr_left fun found _ => by rw [same found]
  rw [unchanged]

end WordTemplate.Wordml
