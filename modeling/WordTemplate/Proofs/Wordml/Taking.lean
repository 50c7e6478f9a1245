import WordTemplate.Proofs.Markup.DistinctKeys
import WordTemplate.Proofs.Wordml.Merging

/-! What goes when texts are taken into others: the texts themselves, and runs that are left empty, with
their properties. Of all other nodes only texts are changed, by what they say and by keeping blanks. -/

namespace WordTemplate.Wordml

open Markup
open Markup.Document (Removes)

/-- The texts that are taken in when the markers in a list of texts are completed. -/
inductive TakenIn (document : Document) : List NodeId → List NodeId → Prop
  | nil : TakenIn document [] []
  | closes {id : NodeId} {rest taken after more : List NodeId}
      (opened : hasOpenMarker (document.text id) = true)
      (cut : cutClosing? document (document.text id) rest = some (taken, after))
      (later : TakenIn document after more) : TakenIn document (id :: rest) (taken ++ more)
  | skips {id : NodeId} {rest taken : List NodeId} (later : TakenIn document rest taken) :
      TakenIn document (id :: rest) taken

theorem cutClosing?_congr {first second : Document} {ids : List NodeId}
    (same : ∀ id ∈ ids, second.text id = first.text id) (joined : String) :
    cutClosing? second joined ids = cutClosing? first joined ids := by
  induction ids generalizing joined with
  | nil => rfl
  | cons id rest ih =>
      rw [List.forall_mem_cons] at same
      simp only [cutClosing?, same.1, ih same.2]

theorem TakenIn.congr {first second : Document} {ids taken : List NodeId} (takenIn : TakenIn second ids taken)
    (same : ∀ id ∈ ids, second.text id = first.text id) : TakenIn first ids taken := by
  induction takenIn with
  | nil => exact .nil
  | closes opened cut _ ih =>
      rw [List.forall_mem_cons] at same
      rw [same.1] at opened cut
      rw [cutClosing?_congr same.2] at cut
      exact .closes opened cut (ih fun id member => same.2 id ((mem_of_cutClosing? cut).2 member))
  | skips _ ih => exact .skips (ih fun id member => same id (List.mem_cons_of_mem _ member))

theorem TakenIn.sublist {document : Document} {ids taken : List NodeId} (takenIn : TakenIn document ids taken) :
    taken.Sublist ids := by
  induction takenIn with
  | nil => exact List.nil_sublist _
  | closes _ cut _ ih =>
      obtain ⟨rfl, _⟩ := closed_of_cutClosing? cut
      exact (ih.append_left _).cons _
  | skips _ ih => exact ih.cons _

/-- A node stands among the properties of a run. -/
def InProperties (document : Document) (run id : NodeId) : Prop :=
  ∃ properties, document.Lists run properties ∧ document.tag properties = runProperties ∧
    id ∈ properties :: document.descendants properties

/-- A run goes with a text that was in it. Beside properties it listed texts that were taken in, and runs
that went before. -/
structure Emptied (document : Document) (taken gone : List NodeId) (id : NodeId) : Prop where
  lost : id ∈ gone
  tag : document.tag id = run
  source : ∃ source ∈ taken, document.Lists id source
  rest : ∀ child, document.Lists id child → child ∈ taken ∨ document.tag child = runProperties ∨
    child ∈ gone ∧ document.tag child = run

theorem Emptied.mono {document : Document} {taken gone taken' gone' : List NodeId} {id : NodeId}
    (emptied : Emptied document taken gone id) (more : taken ⊆ taken') (further : gone ⊆ gone') :
    Emptied document taken' gone' id where
  lost := further emptied.lost
  tag := emptied.tag
  source := emptied.source.imp fun _ both => ⟨more both.1, both.2⟩
  rest := fun child lists =>
    (emptied.rest child lists).imp (@more child) (Or.imp_right fun both => ⟨further both.1, both.2⟩)

/-- An element keeps its attributes, or blanks around its text are kept from now on. -/
def Respaced (first second : Element) : Prop :=
  second.attributes = first.attributes ∨
    second.attributes = (first.setAttribute spaceKey "preserve").attributes

theorem Respaced.trans {first second third : Element} (left : Respaced first second)
    (right : Respaced second third) : Respaced first third := by
  rcases left with same | spaced
  · rwa [Respaced, Element.setAttribute, same] at right
  · refine .inr ?_
    rcases right with same | again
    · exact same.trans spaced
    · rw [again, Element.setAttribute, spaced]
      exact Element.set_set

/-- Texts of some paragraphs were taken into other texts of these paragraphs. -/
structure Takes (paragraphs taken gone : List NodeId) (first second : Document) : Prop where
  sound : second.Sound
  removes : Removes gone first second
  owned : ∀ id ∈ taken, id ∈ gone ∧ ∃ scope ∈ paragraphs, id ∈ ownTexts first scope
  goes : ∀ id ∈ gone, id ∈ taken ∨
    ∃ run, Emptied first taken gone run ∧ (id = run ∨ InProperties first run id)
  styled : ∀ id, (second.node id).toElement = (first.node id).toElement ∨
    (∃ scope ∈ paragraphs, id ∈ ownTexts first scope) ∧
      Respaced (first.node id).toElement (second.node id).toElement

namespace Takes

variable {first second third : Document} {paragraphs taken gone : List NodeId}

theorem start (paragraphs : List NodeId) (sound : first.Sound) : Takes paragraphs [] [] first first where
  sound := sound
  removes := .of_sameLinks (.refl first) rfl rfl fun _ => rfl
  owned := by simp
  goes := by simp
  styled := fun _ => .inl rfl

theorem widen (takes : Takes paragraphs taken gone first second) {more : List NodeId}
    (inside : paragraphs ⊆ more) : Takes more taken gone first second where
  sound := takes.sound
  removes := takes.removes
  owned := fun id member =>
    ⟨(takes.owned id member).1, (takes.owned id member).2.imp fun _ both => ⟨inside both.1, both.2⟩⟩
  goes := takes.goes
  styled := fun id =>
    (takes.styled id).imp_right fun both => ⟨both.1.imp fun _ inner => ⟨inside inner.1, inner.2⟩, both.2⟩

theorem tag_of_taken (takes : Takes paragraphs taken gone first second) {id : NodeId}
    (member : id ∈ taken) : first.tag id = text := by
  obtain ⟨_, scope, _, own⟩ := takes.owned id member
  exact (mem_ownTexts.mp own).2.1

theorem goes_mono (takes : Takes paragraphs taken gone first second) {taken' gone' : List NodeId}
    (more : taken ⊆ taken') (further : gone ⊆ gone') {id : NodeId} (lost : id ∈ gone) :
    id ∈ taken' ∨ ∃ run, Emptied first taken' gone' run ∧ (id = run ∨ InProperties first run id) :=
  (takes.goes id lost).imp (@more id)
    (Exists.imp fun _ => And.imp_left fun emptied => emptied.mono more further)

theorem kept (takes : Takes paragraphs taken gone first second) {id : NodeId}
    (live : second.isLive id = true) : id ∉ gone := by
  intro lost
  rw [takes.removes.dead id lost] at live
  exact absurd live (by decide)

theorem live_first (takes : Takes paragraphs taken gone first second) {id : NodeId}
    (live : second.isLive id = true) : first.isLive id = true := by
  rwa [takes.removes.live id (takes.kept live)] at live

theorem lists_first (takes : Takes paragraphs taken gone first second) {parent child : NodeId}
    (lists : second.Lists parent child) : first.Lists parent child := by
  have kept := takes.kept (takes.sound.wellFormed.parent_live lists)
  rw [Document.Lists, takes.removes.children parent kept] at lists
  exact (List.mem_filter.mp lists).1

theorem lists_second (takes : Takes paragraphs taken gone first second) {parent child : NodeId}
    (live : second.isLive parent = true) (lists : first.Lists parent child) (left : child ∉ gone) :
    second.Lists parent child := by
  rw [Document.Lists, takes.removes.children parent (takes.kept live), List.mem_filter]
  exact ⟨lists, by simpa using left⟩

theorem descendants_first (takes : Takes paragraphs taken gone first second) {start id : NodeId}
    (live : second.isLive start = true) (below : id ∈ second.descendants start) :
    id ∈ first.descendants start := by
  rw [takes.removes.descendants (takes.kept live)] at below
  exact (List.mem_filter.mp below).1

theorem descendants_text (takes : Takes paragraphs taken gone first second)
    (bare : ∀ id, first.tag id = text → first.children id = []) {source : NodeId}
    (isText : first.tag source = text) : second.descendants source = [] := by
  rw [List.eq_nil_iff_forall_not_mem]
  intro id deeper
  obtain ⟨child, lists, _⟩ := takes.sound.mem_descendants_iff.mp deeper
  have nothing := takes.lists_first lists
  rw [Document.Lists, bare source isText] at nothing
  exact List.not_mem_nil nothing

theorem restyle (takes : Takes paragraphs taken gone first second) {scope target : NodeId}
    (inside : scope ∈ paragraphs) (own : target ∈ ownTexts first scope)
    (restyles : Restyles target second third)
    (respaced : Respaced (second.node target).toElement (third.node target).toElement) :
    Takes paragraphs taken gone first third where
  sound := restyles.rewritten.sound takes.sound
  removes := by simpa using takes.removes.trans restyles.removes
  owned := takes.owned
  goes := takes.goes
  styled := by
    intro id
    by_cases here : id = target
    · subst here
      refine .inr ⟨⟨scope, inside, own⟩, ?_⟩
      rcases takes.styled id with same | ⟨_, before⟩
      · rwa [← same]
      · exact before.trans respaced
    · rw [restyles.frame id here]
      exact takes.styled id

theorem pushText (takes : Takes paragraphs taken gone first second) {scope target : NodeId}
    (inside : scope ∈ paragraphs) (own : target ∈ ownTexts first scope) (content : String) :
    Takes paragraphs taken gone first (second.pushText target content) := by
  refine takes.restyle inside own (restyles_pushText second target content) (.inl ?_)
  rw [Document.pushText, Document.node_modify]
  split <;> rfl

theorem preserveSpace (takes : Takes paragraphs taken gone first second) {scope target : NodeId}
    (inside : scope ∈ paragraphs) (own : target ∈ ownTexts first scope) :
    Takes paragraphs taken gone first (preserveSpace second target) := by
  refine takes.restyle inside own (restyles_preserveSpace second target) ?_
  rw [Wordml.preserveSpace]
  split
  · rw [Document.setAttribute, Document.node_modify]
    split
    · exact .inr rfl
    · exact .inl rfl
  · exact .inl rfl

theorem mem_gone_of_below (takes : Takes paragraphs taken gone first second) (sound : first.Sound)
    {start id : NodeId} (lost : start ∈ gone) (below : id ∈ first.descendants start) : id ∈ gone := by
  have path := (((sound.descendants start).2 id).mp below).2
  clear below
  induction path with
  | single lists => exact takes.removes.below _ lost _ lists
  | tail _ lists ih => exact takes.removes.below _ ih _ lists

theorem lost_child (takes : Takes paragraphs taken gone first second) (sound : first.Sound)
    {id child : NodeId} (live : second.isLive id = true) (isRun : first.tag id = run)
    (lists : first.Lists id child) (lost : child ∈ gone) :
    child ∈ taken ∨ first.tag child = runProperties ∨ child ∈ gone ∧ first.tag child = run := by
  rcases takes.goes child lost with member | ⟨other, emptied, rfl | ⟨properties, inRun, tag, place⟩⟩
  · exact .inl member
  · exact .inr (.inr ⟨lost, emptied.tag⟩)
  · rcases List.mem_cons.mp place with rfl | deeper
    · exact .inr (.inl tag)
    · exfalso
      rcases sound.parent_of_mem_descendants deeper lists with rfl | above
      · rw [isRun] at tag
        exact absurd tag (by decide)
      · have lostProperties := takes.removes.below _ emptied.lost _ inRun
        exact takes.kept live (takes.mem_gone_of_below sound lostProperties above)

/-- A run goes that lists nothing but properties and texts that are taken in. -/
theorem delete (takes : Takes paragraphs taken gone first second) (sound : first.Sound)
    (bare : ∀ id, first.tag id = text → first.children id = []) {id : NodeId} {more : List NodeId}
    (live : second.isLive id = true) (isRun : first.tag id = run)
    (source : ∃ source ∈ taken ++ more, first.Lists id source)
    (own : ∀ child ∈ more, second.Lists id child ∧ ∃ scope ∈ paragraphs, child ∈ ownTexts first scope)
    (rest : ∀ child, second.Lists id child → child ∈ more ∨ first.tag child = runProperties) :
    Takes paragraphs (taken ++ more) (gone ++ id :: second.descendants id) first (second.delete id) where
  sound := takes.sound.delete id
  removes := takes.removes.trans (takes.sound.removes_delete live)
  owned := by
    intro child member
    rcases List.mem_append.mp member with early | late
    · obtain ⟨lost, place⟩ := takes.owned child early
      exact ⟨List.mem_append_left _ lost, place⟩
    · obtain ⟨lists, place⟩ := own child late
      have below := takes.sound.mem_descendants (.inl rfl) lists
      exact ⟨List.mem_append_right _ (List.mem_cons_of_mem _ below), place⟩
  goes := by
    have emptied : Emptied first (taken ++ more) (gone ++ id :: second.descendants id) id := by
      refine ⟨by simp, isRun, source, fun child lists => ?_⟩
      by_cases lost : child ∈ gone
      · rcases takes.lost_child sound live isRun lists lost with member | tag | ⟨_, tag⟩
        · exact .inl (List.mem_append_left _ member)
        · exact .inr (.inl tag)
        · exact .inr (.inr ⟨List.mem_append_left _ lost, tag⟩)
      · rcases rest child (takes.lists_second live lists lost) with member | tag
        · exact .inl (List.mem_append_right _ member)
        · exact .inr (.inl tag)
    intro other lost
    rcases List.mem_append.mp lost with early | late
    · exact takes.goes_mono (List.subset_append_left ..) (List.subset_append_left ..) early
    rcases List.mem_cons.mp late with rfl | below
    · exact .inr ⟨other, emptied, .inl rfl⟩
    obtain ⟨child, lists, place⟩ := takes.sound.mem_descendants_iff.mp below
    have childLive := takes.sound.wellFormed.child_live lists
    rcases rest child lists with member | tag
    · rcases place with rfl | deeper
      · exact .inl (List.mem_append_right _ member)
      · obtain ⟨_, scope, _, inScope⟩ := own child member
        rw [takes.descendants_text bare (mem_ownTexts.mp inScope).2.1] at deeper
        exact absurd deeper List.not_mem_nil
    · refine .inr ⟨id, emptied, .inr ⟨child, takes.lists_first lists, tag, ?_⟩⟩
      exact List.mem_cons.mpr (place.imp_right (takes.descendants_first childLive))
  styled := by
    intro other
    rw [takes.sound.toElement_delete]
    exact takes.styled other

theorem deleteSole (takes : Takes paragraphs taken gone first second)
    (bare : ∀ id, first.tag id = text → first.children id = []) {scope source : NodeId}
    (inside : scope ∈ paragraphs) (own : source ∈ ownTexts first scope)
    (live : second.isLive source = true) :
    Takes paragraphs (taken ++ [source]) (gone ++ [source]) first (second.delete source) := by
  have removes := takes.removes.trans (takes.sound.removes_delete live)
  rw [takes.descendants_text bare (mem_ownTexts.mp own).2.1] at removes
  refine ⟨takes.sound.delete source, removes, fun id member => ?_, fun id lost => ?_, fun id => ?_⟩
  · rcases List.mem_append.mp member with early | late
    · exact ⟨List.mem_append_left _ (takes.owned id early).1, (takes.owned id early).2⟩
    · rw [List.mem_singleton.mp late]
      exact ⟨by simp, scope, inside, own⟩
  · rcases List.mem_append.mp lost with early | late
    · exact takes.goes_mono (List.subset_append_left ..) (List.subset_append_left ..) early
    · exact .inl (List.mem_append_right _ late)
  · rw [takes.sound.toElement_delete]
    exact takes.styled id

/-- A text that went with an earlier one has been taken in too. -/
theorem take_lost (takes : Takes paragraphs taken gone first second) {scope source : NodeId}
    (inside : scope ∈ paragraphs) (own : source ∈ ownTexts first scope) (lost : source ∈ gone) :
    Takes paragraphs (taken ++ [source]) gone first second where
  sound := takes.sound
  removes := takes.removes
  owned := fun id member => by
    rcases List.mem_append.mp member with early | late
    · exact takes.owned id early
    · rw [List.mem_singleton.mp late]
      exact ⟨lost, scope, inside, own⟩
  goes := fun _ => takes.goes_mono (List.subset_append_left ..) (List.Subset.refl _)
  styled := takes.styled

theorem deleteText (takes : Takes paragraphs taken gone first second) (sound : first.Sound)
    (bare : ∀ id, first.tag id = text → first.children id = []) {scope source : NodeId}
    (inside : scope ∈ paragraphs) (own : source ∈ ownTexts first scope) :
    ∃ more, Takes paragraphs (taken ++ [source]) (gone ++ more) first (deleteText second source) := by
  have firstLive := (((sound.descendants scope).2 source).mp (mem_ownTexts.mp own).1).1
  by_cases live : second.isLive source = true
  · have deleted := takes.deleteSole bare inside own live
    rw [Wordml.deleteText]
    split
    · exact ⟨[source], deleted⟩
    · rename_i parent above
      split
      · rename_i left
        simp only [Bool.and_eq_true, decide_eq_true_eq, List.all_eq_true] at left
        obtain ⟨isRun, properties⟩ := left
        rw [deleted.removes.tag] at isRun
        have lists := takes.sound.wellFormed.lists live above
        have apart : parent ≠ source := by
          rintro rfl
          rw [(mem_ownTexts.mp own).2.1] at isRun
          exact absurd isRun (by decide)
        have parentLive : (second.delete source).isLive parent = true := by
          have before := takes.sound.wellFormed.parent_live lists
          have kept := takes.kept before
          rw [deleted.removes.live parent (by simp [kept, apart])]
          exact takes.live_first before
        have emptied := deleted.delete sound bare parentLive isRun
          ⟨source, by simp, takes.lists_first lists⟩ (List.forall_mem_nil _)
          fun child stands => .inr ((deleted.removes.tag child).symm.trans (properties child stands))
        rw [List.append_nil, List.append_assoc] at emptied
        exact ⟨_, emptied⟩
      · exact ⟨[source], deleted⟩
  · have dead : second.isLive source = false := by simpa using live
    have lost : source ∈ gone := by
      by_contra left
      rw [takes.removes.live source left, firstLive] at dead
      exact absurd dead (by decide)
    rw [deleteText_of_dead takes.sound dead]
    exact ⟨[], by simpa using takes.take_lost inside own lost⟩

theorem absorb (takes : Takes paragraphs taken gone first second) (sound : first.Sound)
    (bare : ∀ id, first.tag id = text → first.children id = []) {scope target : NodeId}
    (inside : scope ∈ paragraphs) (own : target ∈ ownTexts first scope) {ids : List NodeId}
    (texts : ∀ id ∈ ids, id ∈ ownTexts first scope) :
    ∃ more, Takes paragraphs (taken ++ ids) (gone ++ more) first (absorb second target ids) ∧
      ∀ id, id ≠ target → (absorb second target ids).text id = second.text id := by
  induction ids generalizing second taken gone with
  | nil => exact ⟨[], by simpa [Wordml.absorb] using takes, fun _ _ => rfl⟩
  | cons source rest ih =>
      rw [List.forall_mem_cons] at texts
      have pushed := takes.pushText inside own (second.text source)
      obtain ⟨lost, step⟩ := pushed.deleteText sound bare inside texts.1
      obtain ⟨more, whole, still⟩ := ih step texts.2
      rw [List.append_assoc, List.append_assoc, List.singleton_append] at whole
      refine ⟨lost ++ more, whole, fun id apart => ?_⟩
      have same := still id apart
      rw [text_deleteText pushed.sound] at same
      refine same.trans ?_
      rw [Document.text, (restyles_pushText second target (second.text source)).frame id apart]
      rfl

/-- Completing markers takes in the texts that are read to belong together. -/
theorem completeMarkers (takes : Takes paragraphs taken gone first second) (sound : first.Sound)
    (bare : ∀ id, first.tag id = text → first.children id = []) {scope : NodeId}
    (inside : scope ∈ paragraphs) {ids : List NodeId} (texts : ∀ id ∈ ids, id ∈ ownTexts first scope)
    (nodup : ids.Nodup) :
    ∃ more lost, Takes paragraphs (taken ++ more) (gone ++ lost) first (completeMarkers second ids).1 ∧
      (completeMarkers second ids).2 = more.length ∧ TakenIn second ids more := by
  induction size : ids.length using Nat.strongRecOn generalizing second taken gone ids with
  | ind length ih =>
      cases ids with
      | nil =>
          rw [Wordml.completeMarkers]
          exact ⟨[], [], by simpa using takes, rfl, .nil⟩
      | cons id rest =>
          rw [List.forall_mem_cons] at texts
          rw [List.nodup_cons] at nodup
          rw [Wordml.completeMarkers]
          split
          · rename_i found after cut
            obtain ⟨opened, closing⟩ : hasOpenMarker (second.text id) = true ∧
                cutClosing? second (second.text id) rest = some (found, after) := by
              split at cut
              · exact ⟨‹_›, cut⟩
              · simp at cut
            obtain ⟨rfl, _⟩ := closed_of_cutClosing? closing
            rw [List.forall_mem_append] at texts
            obtain ⟨lost, absorbed, still⟩ := takes.absorb sound bare inside texts.1 texts.2.1
            have spaced := absorbed.preserveSpace inside texts.1
            have nodupAfter := (List.nodup_append.mp nodup.2).2.1
            obtain ⟨more, further, whole, count, takenIn⟩ :=
              ih after.length (by simp at size; omega) spaced texts.2.2 nodupAfter rfl
            rw [List.append_assoc, List.append_assoc] at whole
            refine ⟨found ++ more, lost ++ further, whole, ?_, .closes opened closing ?_⟩
            · rw [List.length_append, ← count]
            · refine takenIn.congr fun other member => ?_
              rw [text_preserveSpace, still other]
              rintro rfl
              exact nodup.1 (List.mem_append_right _ member)
          · obtain ⟨more, lost, whole, count, takenIn⟩ :=
              ih rest.length (by simp at size; omega) takes texts.2 nodup.2 rfl
            exact ⟨more, lost, whole, count, .skips takenIn⟩

/-- Joining a run to a text takes in its sole text. -/
theorem joinRun (takes : Takes paragraphs taken gone first second) (plain : Plain first)
    {scope target child found : NodeId} (inside : scope ∈ paragraphs)
    (targetOwn : target ∈ ownTexts first scope) (isRun : first.tag child = run)
    (sole : soleText? second child = some found) (own : found ∈ ownTexts first scope) :
    ∃ lost, Takes paragraphs (taken ++ [found]) (gone ++ lost) first
      ((Wordml.preserveSpace (second.pushText target (second.text found)) target).delete child) := by
  obtain ⟨lists, others⟩ := children_of_soleText? sole
  have restyles := (restyles_pushText second target (second.text found)).trans
    (restyles_preserveSpace _ target)
  have joined := (takes.pushText inside targetOwn (second.text found)).preserveSpace inside targetOwn
  generalize Wordml.preserveSpace (second.pushText target (second.text found)) target = third at *
  have children := restyles.rewritten.links.children child
  have live : third.isLive child = true := by
    rw [restyles.rewritten.links.isLive]
    exact takes.sound.wellFormed.parent_live lists
  refine ⟨_, joined.delete plain.sound plain.texts live isRun
    ⟨found, by simp, takes.lists_first lists⟩ (fun other member => ?_) fun other listed => ?_⟩
  · rw [List.mem_singleton.mp member, Document.Lists, children]
    exact ⟨lists, scope, inside, own⟩
  · rw [Document.Lists, children] at listed
    rw [List.mem_singleton, ← takes.removes.tag]
    exact others other listed

/-- Joining runs takes in the texts of the runs that go. -/
theorem joinRuns (takes : Takes paragraphs taken gone first second) (plain : Plain first) {scope : NodeId}
    (inside : scope ∈ paragraphs) (isParagraph : IsParagraph first scope) {anchor : Option Anchor}
    (anchored : ∀ found ∈ anchor, found.text ∈ ownTexts first scope) {children : List NodeId}
    (listed : ∀ child ∈ children, first.Lists scope child) :
    ∃ more lost, Takes paragraphs (taken ++ more) (gone ++ lost) first
      (joinRuns second anchor children).1 := by
  induction children generalizing second anchor taken gone with
  | nil => exact ⟨[], [], by simpa [Wordml.joinRuns] using takes⟩
  | cons child rest ih =>
      rw [List.forall_mem_cons] at listed
      rw [Wordml.joinRuns]
      split
      · exact ih takes (by simp) listed.2
      · rename_i found sole
        obtain ⟨isRun, sole⟩ : second.tag child = run ∧ soleText? second child = some found := by
          split at sole
          · exact ⟨‹_›, sole⟩
          · simp at sole
        have isText := isText_of_soleText? sole
        rw [takes.removes.tag] at isRun isText
        -- The run listed its text in the beginning, and stood in the paragraph.
        have stands := takes.lists_first (children_of_soleText? sole).1
        have own : found ∈ ownTexts first scope := by
          refine mem_ownTexts.mpr ⟨?_, isText, closest?_of_run plain isParagraph listed.1 isRun stands isText⟩
          have below := plain.sound.mem_descendants (.inl rfl) listed.1
          exact plain.sound.mem_descendants (.inr below) stands
        simp only
        split
        · rename_i target same
          have targetOwn := anchored target (Option.filter_eq_some_iff.mp same).1
          obtain ⟨gone, joined⟩ := takes.joinRun plain inside targetOwn isRun sole own
          obtain ⟨more, lost, whole⟩ := ih joined
            (fun other member => Option.mem_some_iff.mp member ▸ targetOwn) listed.2
          rw [List.append_assoc, List.append_assoc] at whole
          exact ⟨_, _, whole⟩
        · refine ih takes (fun other member => ?_) listed.2
          rw [← Option.mem_some_iff.mp member]
          exact own

end Takes

end WordTemplate.Wordml
