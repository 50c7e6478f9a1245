import WordTemplate.Proofs.Filling.Splices

/-! Filling single placeholders on a walk. Every node below the root is visited once, and what a visit
leaves behind has no placeholder that addresses a scalar. -/

namespace WordTemplate

namespace Markup.Document

open Outline (idsAll)

variable {holds : String → Prop} {document : Document}

theorem exists_under_of_rooted (stands : document.StandsBeside []) {id : NodeId}
    (live : document.isLive id = true) (below : id ≠ document.root) :
    ∃ (outer : Context) (before after : List Outline) (parent : NodeId) (outline : Outline),
      outline.id = id ∧
        document.Holds ((Context.under outer before after parent).fill [outline]) ∧
        ∀ second (other : Document), other.root = document.root →
          other.Holds ((Context.under outer before after parent).fill second) →
            other.StandsBeside [] := by
  obtain ⟨tree, top, holds⟩ := stands
  rw [List.nil_append] at holds
  obtain ⟨context, outline, rfl, whole⟩ := exists_context (holds.mem_of_isLive id live)
  obtain ⟨outer, before, after, parent, rfl⟩ := Context.eq_under whole (top ▸ below)
  refine ⟨outer, before, after, parent, outline, rfl, whole ▸ holds, ?_⟩
  intro second other sameRoot held
  obtain ⟨root, same, filled⟩ := Context.exists_fill_under whole.symm second
  exact ⟨root, by rw [same, top, sameRoot], by rw [List.nil_append, ← filled]; exact held⟩

/-- What visits of live nodes keep, a walk keeps. -/
theorem walk_induction {σ : Type} {motive : Document × σ → Prop} {visit : Visitor σ}
    (visits : ∀ document own id, document.isLive id = true → motive (document, own) →
      motive ((visit document own id).1, (visit document own id).2.1))
    {document : Document} {own : σ} (start : NodeId) (begin : motive (document, own)) :
    motive (document.walk start visit own) := by
  have each : ∀ (depth : Nat) (id : NodeId) (state : Document × σ), motive state →
      motive (walkNode visit depth state id) := by
    intro depth
    induction depth with
    | zero => exact fun _ _ kept => kept
    | succ depth ih =>
        intro id state kept
        rw [walkNode]
        split
        · rename_i live
          have visited := visits state.1 state.2 id live kept
          simp only
          split
          · exact visited
          · exact List.foldlRecOn _ _ visited fun state kept child _ => ih child state kept
        · exact kept
  exact List.foldlRecOn _ _ begin fun state kept child _ => each _ child state kept

theorem keeps_walk {σ : Type} {visit : Visitor σ}
    (keeps : ∀ document own id, document.isLive id = true →
      Keeps holds document (visit document own id).1) (document : Document) (start : NodeId)
    (own : σ) : Keeps holds document (document.walk start visit own).1 :=
  walk_induction (motive := fun state => Keeps holds document state.1)
    (fun middle own id live kept => kept.trans (keeps middle own id live)) start (.refl document)

end Markup.Document

namespace Filling

open Markup
open Markup.Document (Keeps)
open Placeholder (Tidy Filled)

variable {params : Params} {document : Document}

theorem keeps_fillAttributes (plain : Plain params) (document : Document) (id : NodeId) :
    Keeps Tidy document (fillAttributes document params id) := by
  refine Document.keeps_setAttributes document id fun slots => ?_
  intro entry member
  obtain ⟨origin, listed, rfl⟩ := List.mem_map.mp member
  exact (filled_fillValue plain (slots.value id origin listed)).tidy

theorem sameLinks_fillAttributes (document : Document) (params : Params) (id : NodeId) :
    Document.SameLinks document (fillAttributes document params id) :=
  Document.sameLinks_modify document id (fun _ => rfl) (fun _ => rfl) fun _ => rfl

theorem has_of_filled {insert : Insert} (filled : insert.Filled params) {holds : String → Prop}
    (text : ∀ content, Filled (Addressed params) content → holds content)
    (braceless : ∀ content : String, Braceless content.toList → holds content) :
    insert.Has holds := by
  cases insert with
  | text content => exact text content filled
  | markup content =>
      intro fragment parsed id listed inside
      have slots := filled fragment parsed id listed inside
      exact ⟨fun isText => braceless _ (slots.text isText),
        fun entry member => braceless _ (slots.value entry member)⟩

theorem keeps_fillText (plain : Plain params) {id : NodeId} (live : document.isLive id = true)
    (isText : document.tag id = Wordml.text) :
    Keeps Tidy document (fillText document params id) := by
  have inserted : document.AllSlots Tidy →
      ∀ insert ∈ (Piece.ofText (document.text id)).map (insertOf params), insert.Filled params := by
    intro slots insert member
    obtain ⟨piece, listed, rfl⟩ := List.mem_map.mp member
    exact filled_insertOf plain (slots.text isText) piece listed
  simp only [fillText]
  split
  · split
    · have spliced := ages_spliceAfter document id
        (joinTexts ((Piece.ofText (document.text id)).map (insertOf params)))
      refine ⟨spliced.trans (Document.ages_delete _ id), ?_, ?_⟩
      · rintro (dead | stands)
        · exact .inl ((spliced.trans (Document.ages_delete _ id)).rootDead dead)
        · by_cases atRoot : id = document.root
          · have bound := Nat.lt_of_lt_of_le stands.root_lt_size spliced.size_le
            generalize spliceAfter document id _ = spliced' at spliced bound
            obtain rfl : id = spliced'.root := by rw [atRoot, spliced.root]
            exact Document.rooted_delete_root (by rw [spliced.root]; exact bound)
          · obtain ⟨outer, before, after, parent, outline, rfl, holds, again⟩ :=
              Document.exists_under_of_rooted stands live atRoot
            have placed : ∃ trees, (spliceAfter document outline.id (joinTexts
                ((Piece.ofText (document.text outline.id)).map (insertOf params)))).Holds
                ((Context.under outer before after parent).fill ([] ++ outline :: trees)) :=
              holds_spliceAfter holds
            obtain ⟨trees, placed⟩ := placed
            exact Document.rooted_delete (.inr (again _ _ spliced.root placed)) outline.id
      · intro slots
        apply Document.slots_delete
        refine slots_spliceAfter slots id ?_ tidy_preserve tidy_empty
        intro insert member
        exact has_of_filled (filled_joinTexts (inserted slots) insert member)
          (fun _ filled => filled.tidy) fun _ braceless => Placeholder.tidy_of_braceless braceless
    · rename_i noMarkup
      refine (Document.keeps_setText document id fun slots _ => ?_).trans
        (Document.keeps_preserveSpace _ id tidy_preserve)
      exact (filled_contents (inserted slots) (by simpa using noMarkup)).tidy
  · exact .refl document

theorem keeps_fillNode (plain : Plain params) (document : Document) (firings : List Firing)
    {id : NodeId} (live : document.isLive id = true) :
    Keeps Tidy document (fillNode params document firings id).1 := by
  have attributes := keeps_fillAttributes plain document id
  have stillLive : (fillAttributes document params id).isLive id = true :=
    ((sameLinks_fillAttributes document params id).isLive id).trans live
  simp only [fillNode]
  split
  · rename_i isText
    exact attributes.trans (keeps_fillText plain stillLive isText)
  · exact attributes

theorem keeps_fillSingles (plain : Plain params) (document : Document) :
    Keeps Tidy document (fillSingles document params) := by
  have walked := Document.keeps_walk (fun document own id live =>
    keeps_fillNode plain document own live) (fillAttributes document params document.root)
    document.root []
  exact ((keeps_fillAttributes plain document document.root).trans walked).trans
    (keeps_evaluateAll _ _ tidy_empty)

section Complete

open Markup.Document (Slots)
open Outline (idsAll)

theorem slots_of_visit {holds : String → Prop} {onlyLive : Bool} {among : NodeId → Prop}
    {first second : Document} {id : NodeId}
    (slots : first.Slots holds onlyLive fun other => among other ∧ other ≠ id)
    (same : ∀ other ≠ id, second.node other = first.node other)
    (here : (second.node id).toElement.Slots holds) : second.Slots holds onlyLive among := by
  intro other listed inside
  by_cases visited : other = id
  · exact visited ▸ here
  · rw [Document.isLive, same other visited] at inside
    rw [same other visited]
    exact slots other ⟨listed, visited⟩ inside

theorem node_fillAttributes (document : Document) (params : Params) (id : NodeId) :
    (fillAttributes document params id).node id =
      { document.node id with
        attributes := (document.node id).attributes.map fun entry =>
          { entry with value := fillValue params entry.value } } ∨
      document.size ≤ id := by
  rcases Nat.lt_or_ge id document.size with bound | beyond
  · left
    rw [fillAttributes, Document.setAttributes, Document.node_modify, if_pos ⟨rfl, bound⟩]
  · exact .inr beyond

theorem node_fillAttributes_of_ne (document : Document) (params : Params) {id other : NodeId}
    (elsewhere : other ≠ id) :
    (fillAttributes document params id).node other = document.node other := by
  rw [fillAttributes, Document.setAttributes, Document.node_modify, if_neg fun same => elsewhere same.1]

theorem filled_attributes (plain : Plain params) (tidy : document.AllSlots Tidy) (id : NodeId) :
    ∀ entry ∈ ((document.node id).attributes.map fun entry =>
      ({ entry with value := fillValue params entry.value } : Attribute)),
      Filled (Addressed params) entry.value := by
  intro entry member
  obtain ⟨origin, listed, rfl⟩ := List.mem_map.mp member
  exact filled_fillValue plain (tidy.value id origin listed)

theorem filled_preserve : Filled (Addressed params) "preserve" :=
  Placeholder.filled_of_braceless (by decide)

theorem filled_empty : Filled (Addressed params) "" :=
  Placeholder.filled_of_braceless (by decide)

def takesMarkup (document : Document) (params : Params) (id : NodeId) : Bool :=
  ((Placeholder.scan (document.text id)).any fun placeholder =>
      (insert? params placeholder).isSome) &&
    ((Piece.ofText (document.text id)).map (insertOf params)).any Insert.isMarkup

theorem node_setText (document : Document) {id : Nat} (bound : id < document.size) (text : String) :
    (document.setText id text).node id = { document.node id with text } := by
  rw [Document.setText, Document.node_modify, if_pos ⟨rfl, bound⟩]

theorem node_setText_of_ne (document : Document) {id other : NodeId} (elsewhere : other ≠ id)
    (text : String) : (document.setText id text).node other = document.node other := by
  rw [Document.setText, Document.node_modify, if_neg fun same => elsewhere same.1]

theorem node_preserveSpace_of_ne (document : Document) {id other : NodeId}
    (elsewhere : other ≠ id) :
    (Wordml.preserveSpace document id).node other = document.node other := by
  rw [Wordml.preserveSpace]
  split
  · rw [Document.setAttribute, Document.node_modify, if_neg fun same => elsewhere same.1]
  · rfl

theorem slots_node_preserveSpace {holds : String → Prop} (preserve : holds "preserve") {id : NodeId}
    (slots : (document.node id).toElement.Slots holds) :
    ((Wordml.preserveSpace document id).node id).toElement.Slots holds := by
  have only : document.Slots holds false fun other => other = id :=
    fun other same _ => same ▸ slots
  exact Document.slots_preserveSpace only id preserve id rfl (by simp)

theorem fillText_of_no_markup (plain : Plain params) {id : Nat}
    (bound : id < document.size) (tidy : Tidy (document.text id))
    (filled : ∀ entry ∈ (document.node id).attributes, Filled (Addressed params) entry.value)
    (noMarkup : takesMarkup document params id = false) :
    Document.SameLinks document (fillText document params id) ∧
      (∀ other ≠ id, (fillText document params id).node other = document.node other) ∧
      ((fillText document params id).node id).toElement.Slots (Filled (Addressed params)) := by
  have inserted : ∀ insert ∈ (Piece.ofText (document.text id)).map (insertOf params),
      insert.Filled params := by
    intro insert member
    obtain ⟨piece, listed, rfl⟩ := List.mem_map.mp member
    exact filled_insertOf plain tidy piece listed
  simp only [takesMarkup] at noMarkup
  simp only [fillText]
  split
  · rename_i given
    rw [given, Bool.true_and] at noMarkup
    rw [if_neg (by simp [noMarkup])]
    refine ⟨Document.SameLinks.trans ?_ (sameLinks_preserveSpace _ id), ?_, ?_⟩
    · exact Document.sameLinks_modify document id (fun _ => rfl) (fun _ => rfl) fun _ => rfl
    · intro other elsewhere
      rw [node_preserveSpace_of_ne _ elsewhere, node_setText_of_ne _ elsewhere]
    · apply slots_node_preserveSpace filled_preserve
      rw [node_setText document bound]
      exact ⟨fun _ => filled_contents inserted noMarkup, filled⟩
  · rename_i none
    refine ⟨.refl document, fun _ _ => rfl, fun _ => ?_, filled⟩
    rw [Bool.not_eq_true] at none
    exact filled_of_no_insert tidy none

/-- With markup a visit puts new siblings in the place of the text. -/
theorem fillText_of_markup (plain : Plain params) {outer : Context} {before after : List Outline}
    {parent : NodeId} {outline : Outline}
    (holds : document.Holds ((Context.under outer before after parent).fill [outline]))
    (tidy : Tidy (document.text outline.id)) {among : NodeId → Prop}
    (slots : document.Slots (Filled (Addressed params)) true fun other =>
      among other ∧ other ∉ outline.ids)
    (markup : takesMarkup document params outline.id = true) :
    ∃ trees, (fillText document params outline.id).Holds
        ((Context.under outer before after parent).fill trees) ∧
      (fillText document params outline.id).isLive outline.id = false ∧
      (fillText document params outline.id).Slots (Filled (Addressed params)) true among := by
  rw [takesMarkup, Bool.and_eq_true] at markup
  have replaced : fillText document params outline.id = (spliceAfter document outline.id
      (joinTexts ((Piece.ofText (document.text outline.id)).map (insertOf params)))).delete
        outline.id := by
    simp only [fillText]
    rw [if_pos markup.1, if_pos markup.2]
  rw [replaced]
  have inserted : ∀ insert ∈ joinTexts ((Piece.ofText (document.text outline.id)).map
      (insertOf params)), insert.Filled params := by
    apply filled_joinTexts
    intro insert member
    obtain ⟨piece, listed, rfl⟩ := List.mem_map.mp member
    exact filled_insertOf plain tidy piece listed
  generalize joinTexts ((Piece.ofText (document.text outline.id)).map (insertOf params)) =
    inserts at inserted
  have placed : ∃ trees, (spliceAfter document outline.id inserts).Holds
      ((Context.under outer before after parent).fill ([] ++ outline :: trees)) :=
    holds_spliceAfter holds
  obtain ⟨trees, placed⟩ := placed
  have atText : (spliceAfter document outline.id inserts).Holds
      ((Context.under outer before (trees ++ after) parent).fill [outline]) := by
    simpa [Context.fill] using placed
  have spliced := slots_spliceAfter slots outline.id (fun insert member =>
    has_of_filled (inserted insert member) (fun _ filled => filled)
      fun _ braceless => Placeholder.filled_of_braceless braceless) filled_preserve filled_empty
  have dead := Document.isLive_delete atText
  refine ⟨trees, by simpa [Context.fill] using atText.delete, ?_, ?_⟩
  · rw [dead, if_pos outline.id_mem_ids]
  · intro other listed inside
    have live := inside rfl
    have outside : other ∉ outline.ids := by
      intro member
      rw [dead, if_pos member] at live
      exact absurd live (by decide)
    exact Document.slots_delete spliced outline.id other ⟨listed, outside⟩ inside

/-- A live document whose slots are tidy, and filled as far as they are not still to be visited. -/
structure Awaits (params : Params) (awaits : NodeId → Prop) (forest : List Outline)
    (document : Document) : Prop where
  holds : document.Holds forest
  tidy : document.AllSlots Tidy
  filled : document.Slots (Filled (Addressed params)) true fun id => ¬ awaits id

/-- What visiting the nodes of some siblings does. -/
theorem awaits_children {depth : Nat}
    (visited : ∀ {outer : Context} {before after : List Outline} {parent : NodeId}
      {outline : Outline} {state : Document × List Firing} {awaits : NodeId → Prop},
      outline.height ≤ depth →
      Awaits params (fun id => awaits id ∨ id ∈ outline.ids)
        ((Context.under outer before after parent).fill [outline]) state.1 →
      ∃ trees, Awaits params awaits ((Context.under outer before after parent).fill trees)
        (Document.walkNode (fillNode params) depth state outline.id).1)
    {context : Context} {id : NodeId} (front : List Outline) {rest : List Outline}
    (state : Document × List Firing) {awaits : NodeId → Prop} (deep : Outline.heightAll rest ≤ depth)
    (start : Awaits params (fun other => awaits other ∨ other ∈ idsAll rest)
      (context.fill [.node id (front ++ rest)]) state.1) :
    ∃ children, Awaits params awaits (context.fill [.node id children])
      ((rest.map Outline.id).foldl (Document.walkNode (fillNode params) depth) state).1 := by
  induction rest generalizing front state with
  | nil => exact ⟨front ++ [], by simpa [Outline.idsAll] using start⟩
  | cons child rest ih =>
      have here : Awaits params (fun other => (awaits other ∨ other ∈ idsAll rest) ∨ other ∈ child.ids)
          ((Context.under context front rest id).fill [child]) state.1 := by
        refine ⟨by simpa [Context.fill] using start.holds, start.tidy, ?_⟩
        intro other listed inside
        refine start.filled other ?_ inside
        simp only [Outline.idsAll, List.mem_append] at listed ⊢
        tauto
      have shallow : child.height ≤ depth := by
        simp only [Outline.heightAll] at deep
        omega
      obtain ⟨trees, step⟩ := visited shallow here
      have next : Awaits params (fun other => awaits other ∨ other ∈ idsAll rest)
          (context.fill [.node id ((front ++ trees) ++ rest)])
          (Document.walkNode (fillNode params) depth state child.id).1 :=
        ⟨by simpa [Context.fill] using step.holds, step.tidy, step.filled⟩
      have others : Outline.heightAll rest ≤ depth := by
        simp only [Outline.heightAll] at deep
        omega
      exact ih (front ++ trees) _ others next

theorem step_fillNode (params : Params) (document : Document) (firings : List Firing) (id : NodeId) :
    (fillNode params document firings id).2.2 = .descend := by
  simp only [fillNode]
  split <;> rfl

theorem filled_fillAttributes (plain : Plain params) (tidy : document.AllSlots Tidy) {id : NodeId}
    (live : document.isLive id = true) :
    ∀ entry ∈ ((fillAttributes document params id).node id).attributes,
      Filled (Addressed params) entry.value := by
  rcases node_fillAttributes document params id with same | beyond
  · rw [same]
    exact filled_attributes plain tidy id
  · exact absurd (Document.lt_size_of_isLive live) (Nat.not_lt.mpr beyond)

/-- A visit fills the node, or takes it away and leaves filled siblings. -/
theorem awaits_fillNode (plain : Plain params) {outer : Context} {before after children : List Outline}
    {parent id : NodeId} {document : Document} (firings : List Firing) {awaits : NodeId → Prop}
    (start : Awaits params (fun other => awaits other ∨ other ∈ (Outline.node id children).ids)
      ((Context.under outer before after parent).fill [.node id children]) document) :
    (Document.SameLinks document (fillNode params document firings id).1 ∧
      Awaits params (fun other => awaits other ∨ other ∈ idsAll children)
        ((Context.under outer before after parent).fill [.node id children])
        (fillNode params document firings id).1) ∨
    (fillNode params document firings id).1.isLive id = false ∧
      ∃ trees, Awaits params awaits ((Context.under outer before after parent).fill trees)
        (fillNode params document firings id).1 := by
  have live : document.isLive id = true := (Document.holds_fill_iff.mp start.holds).top.live
  have tidied := (keeps_fillNode plain document firings live).slots start.tidy
  have links := sameLinks_fillAttributes document params id
  have bound : id < (fillAttributes document params id).size :=
    Document.lt_size_of_isLive ((links.isLive id).trans live)
  have tidy := (keeps_fillAttributes plain document id).slots start.tidy
  have attributes := filled_fillAttributes plain start.tidy live
  -- Filling the values of a node touches no other node, so what was filled before stays so.
  have others : ∀ below : NodeId → Prop, (∀ other, other ≠ id → below other →
      other ∉ idsAll children ∧ ¬ awaits other) →
      (fillAttributes document params id).Slots (Filled (Addressed params)) true
        fun other => below other ∧ other ≠ id := by
    intro below free other listed alive
    rw [node_fillAttributes_of_ne document params listed.2]
    refine start.filled other ?_ fun only => (links.isLive other).symm.trans (alive only)
    obtain ⟨outside, notAwaited⟩ := free other listed.2 listed.1
    simp [Outline.ids, notAwaited, outside, listed.2]
  simp only [fillNode] at tidied ⊢
  by_cases isText : (fillAttributes document params id).tag id = Wordml.text
  · rw [if_pos isText] at tidied ⊢
    cases markup : takesMarkup (fillAttributes document params id) params id with
    | false =>
        obtain ⟨same, kept, filled⟩ :=
          fillText_of_no_markup plain bound (tidy.text isText) attributes markup
        refine .inl ⟨links.trans same, start.holds.congr (links.trans same), tidied, ?_⟩
        refine slots_of_visit (others _ fun other _ free => ?_) kept filled
        exact ⟨fun below => free (.inr below), fun waits => free (.inl waits)⟩
    | true =>
        have slots := others (fun other => ¬ awaits other ∧ other ∉ idsAll children)
          fun other _ free => ⟨free.2, free.1⟩
        obtain ⟨trees, holds, dead, filled⟩ := fillText_of_markup plain
          (start.holds.congr links) (tidy.text isText)
          (fun other listed alive => slots other ⟨⟨listed.1, fun below => listed.2
            (List.mem_cons_of_mem _ below)⟩, fun same => listed.2 (same ▸ List.mem_cons_self ..)⟩
            alive) markup
        exact .inr ⟨dead, trees, holds, tidied, filled⟩
  · rw [if_neg isText] at tidied ⊢
    refine .inl ⟨links, start.holds.congr links, tidied, ?_⟩
    refine slots_of_visit (others _ fun other _ free => ?_) (fun _ _ => rfl)
      ⟨fun isText' => absurd isText' isText, attributes⟩
    exact ⟨fun below => free (.inr below), fun waits => free (.inl waits)⟩

/-- A visit fills a node and all below it. -/
theorem awaits_walkNode (plain : Plain params) (depth : Nat) {outer : Context}
    {before after : List Outline} {parent : NodeId} {outline : Outline}
    {state : Document × List Firing} {awaits : NodeId → Prop} (deep : outline.height ≤ depth)
    (start : Awaits params (fun id => awaits id ∨ id ∈ outline.ids)
      ((Context.under outer before after parent).fill [outline]) state.1) :
    ∃ trees, Awaits params awaits ((Context.under outer before after parent).fill trees)
      (Document.walkNode (fillNode params) depth state outline.id).1 := by
  induction depth generalizing outer before after parent outline state awaits with
  | zero =>
      cases outline
      simp [Outline.height] at deep
  | succ depth ih =>
      obtain ⟨document, firings⟩ := state
      obtain ⟨id, children⟩ := outline
      have live : document.isLive id = true := (Document.holds_fill_iff.mp start.holds).top.live
      have descends := step_fillNode params document firings id
      have visit := awaits_fillNode plain firings start
      simp only [Document.walkNode, Outline.id_node, live, if_true, descends]
      rcases visit with ⟨links, visited⟩ | ⟨dead, trees, visited⟩
      · have inside := (Document.holds_fill_iff.mp visited.holds).top
        have childIds : (fillNode params document firings id).1.children id =
            children.map Outline.id := inside.children
        have stillLive : (fillNode params document firings id).1.isLive id = true := inside.live
        simp only [stillLive, childIds]
        have below : Outline.heightAll children ≤ depth := by
          simp only [Outline.height] at deep
          omega
        obtain ⟨filled, done⟩ :=
          awaits_children (fun shallow start => ih shallow start) []
            ((fillNode params document firings id).1, (fillNode params document firings id).2.1)
            below visited
        exact ⟨_, done⟩
      · simp only [dead]
        exact ⟨trees, visited⟩

theorem slots_evaluate {holds : String → Prop} {onlyLive : Bool} {among : NodeId → Prop}
    (slots : document.Slots holds onlyLive among) (origin : NodeId) (trigger : Trigger)
    (value : String) (empty : holds "") :
    (evaluate document origin trigger value).1.Slots holds onlyLive among := by
  rw [evaluate]
  split
  · refine Document.slots_foldl (fun document id slots => ?_) _ slots
    cases trigger.command with
    | remove => exact Document.slots_delete slots id
    | clear => exact Document.slots_clearTextDeep slots id empty
  · exact slots

theorem slots_evaluateAll {holds : String → Prop} {onlyLive : Bool} {among : NodeId → Prop}
    (slots : document.Slots holds onlyLive among) (firings : List Firing) (empty : holds "") :
    (Firing.evaluateAll document firings).Slots holds onlyLive among := by
  refine Document.slots_foldl (fun document firing slots => ?_) firings slots
  unfold Firing.evaluate
  simp only
  split
  · exact slots_evaluate slots _ _ _ empty
  · exact slots

/-- Filling single placeholders leaves none in a tidy document that addresses a scalar, in no text and
in no value. -/
theorem filled_fillSingles (plain : Plain params) (stands : document.StandsBeside [])
    (tidy : document.AllSlots Tidy) (notText : document.tag document.root ≠ Wordml.text) :
    (fillSingles document params).LiveSlots (Filled (Addressed params)) := by
  apply slots_evaluateAll _ _ filled_empty
  obtain ⟨⟨root, children⟩, top, holds⟩ := stands
  rw [Outline.id_node] at top
  subst top
  have links := sameLinks_fillAttributes document params document.root
  have kept := keeps_fillAttributes plain document document.root
  have inside : document.Holds ((Context.top [] []).fill [.node document.root children]) := holds
  have live := (Document.holds_fill_iff.mp inside).top.live
  have childIds : (fillAttributes document params document.root).children document.root =
      children.map Outline.id :=
    (links.children _).trans (Document.holds_fill_iff.mp inside).top.children
  have sameRoot : (fillAttributes document params document.root).root = document.root := rfl
  have start : Awaits params (fun id => False ∨ id ∈ idsAll children)
      ((Context.top [] []).fill [.node document.root ([] ++ children)])
      (fillAttributes document params document.root) := by
    refine ⟨inside.congr links, kept.slots tidy, ?_⟩
    intro id outside alive
    have member := (inside.congr links).mem_of_isLive id (alive rfl)
    simp only [Context.fill, List.nil_append, List.append_nil, Outline.idsAll, Outline.ids,
      List.mem_cons] at member
    rcases member with here | below
    · subst here
      refine ⟨fun isText => ?_, filled_fillAttributes plain tidy live⟩
      exact absurd ((kept.ages.tag _ (Document.lt_size_of_isLive live)).symm.trans isText) notText
    · exact absurd (.inr below) outside
  have deep : Outline.heightAll children ≤
      (fillAttributes document params document.root).size := by
    have bound := (Document.holds_fill_iff.mp (inside.congr links)).height_le_size
    simp only [Outline.height] at bound
    omega
  obtain ⟨filled, done⟩ := awaits_children
    (fun shallow start => awaits_walkNode plain _ shallow start) []
    (fillAttributes document params document.root, []) deep start
  rw [← childIds, ← sameRoot] at done
  intro id _ alive
  exact done.filled id (fun impossible => impossible) alive

end Complete

end Filling

end WordTemplate
