import WordTemplate.Proofs.Package.Bookkeeping

/-! Requests for images, one after the other. Each image that can be had is shown at the end as it was when it
was asked for, and there is one media part for each source. -/

namespace WordTemplate

namespace Gallery

open Markup (Tree)
open Package (contentTypes relationsPart relationship highestNumber maxNumber)

variable {gallery next : Gallery} {sources : ImageSources} {image : Image} {used : Image.Source → Prop}

/-- A request for the markup of an image in a part. -/
structure Request where
  image : Image
  part : String

/-- The gallery after a request. One that fails changes nothing. -/
def answer (sources : ImageSources) (gallery : Gallery) (request : Request) : Gallery :=
  match gallery.resolve sources request.image request.part with
  | .ok (next, _) => next
  | .error _ => gallery

def after (sources : ImageSources) (gallery : Gallery) (requests : List Request) : Gallery :=
  requests.foldl (answer sources) gallery

/-- There are ids left for a number of requests. -/
def Room (gallery : Gallery) (count : Nat) : Prop :=
  ∀ part, highestNumber (gallery.package.entries (relationsPart part)) + count ≤ maxNumber

theorem answer_spec (booked : Booked sources used gallery) {request : Request} {count : Nat}
    (isUsed : ∀ source, request.image.source? = some source → used source)
    (room : gallery.Room (count + 1)) :
    Booked sources used (answer sources gallery request) ∧
      Grows gallery (answer sources gallery request) ∧ (answer sources gallery request).Room count := by
  rw [answer]
  split
  · rename_i next markup resolved
    obtain ⟨books, grows, highest, -⟩ := resolve_spec booked isUsed
      (fun part => by have := room part; omega) resolved
    refine ⟨books, grows, fun part => ?_⟩
    have before := room part
    have now := highest part
    omega
  · exact ⟨booked, .refl _, fun part => by have := room part; omega⟩

theorem after_spec (booked : Booked sources used gallery) {requests : List Request} {count : Nat}
    (isUsed : ∀ request ∈ requests, ∀ source, request.image.source? = some source → used source)
    (room : gallery.Room (requests.length + count)) :
    Booked sources used (after sources gallery requests) ∧
      Grows gallery (after sources gallery requests) ∧ (after sources gallery requests).Room count := by
  induction requests generalizing gallery with
  | nil => exact ⟨booked, .refl _, by simpa [after] using room⟩
  | cons request rest ih =>
      have more : gallery.Room (rest.length + count + 1) := by
        intro part
        have := room part
        rw [List.length_cons] at this
        omega
      obtain ⟨books, grows, left⟩ := answer_spec booked (isUsed request (List.mem_cons_self ..)) more
      obtain ⟨last, onward, end'⟩ :=
        ih books (fun other member => isUsed other (List.mem_cons_of_mem _ member)) left
      exact ⟨last, grows.trans onward, end'⟩

theorem frame_after (sources : ImageSources) (gallery : Gallery) (requests : List Request) :
    Package.Frame (fun name => ∃ request ∈ requests, Touches request.part name)
      (fun name => ∃ request ∈ requests, Brings request.part name) gallery.package
      (after sources gallery requests).package := by
  induction requests generalizing gallery with
  | nil => exact .refl _
  | cons request rest ih =>
      have first : Package.Frame (Touches request.part) (Brings request.part) gallery.package
          (answer sources gallery request).package := by
        rw [answer]
        split
        · rename_i next markup resolved
          exact frame_resolve resolved
        · exact .refl _
      refine (first.mono ?_ ?_).trans ((ih (answer sources gallery request)).mono ?_ ?_)
      · exact fun _ touched => ⟨request, List.mem_cons_self .., touched⟩
      · exact fun _ brought => ⟨request, List.mem_cons_self .., brought⟩
      · exact fun _ ⟨other, member, touched⟩ => ⟨other, List.mem_cons_of_mem _ member, touched⟩
      · exact fun _ ⟨other, member, brought⟩ => ⟨other, List.mem_cons_of_mem _ member, brought⟩

/-- A request succeeds just when the content of its source can be had. -/
theorem resolve_isOk_iff (booked : Booked sources used gallery) (part : String)
    (isUsed : ∀ source, image.source? = some source → used source)
    (apart : ∀ source other, used source → used other → source.name = other.name → source = other) :
    (∃ shown, gallery.resolve sources image part = .ok shown) ↔
      ∃ source, image.source? = some source ∧ (sources.content? source).isSome = true := by
  have stored : (∃ shown, gallery.resolve sources image part = .ok shown) ↔
      ∃ known, gallery.mediaPart sources image = .ok known := by
    simp only [resolve, bind, Except.bind]
    cases gallery.mediaPart sources image <;> simp [pure, Except.pure]
  rw [stored]
  rcases mediaPart_eq gallery sources image with
    ⟨source, given, ⟨media, found, kept⟩ | ⟨-, ⟨content, read, added⟩ | ⟨unread, problem, failed⟩⟩⟩ |
      ⟨missing, problem, failed⟩
  · obtain ⟨other, otherUsed, named, stores⟩ := booked.media _ _ found
    obtain ⟨content, read, -⟩ := stores.content
    rw [apart other source otherUsed (isUsed source given) named] at read
    exact iff_of_true ⟨_, kept⟩ ⟨source, given, by rw [read]; rfl⟩
  · exact iff_of_true ⟨_, added⟩ ⟨source, given, by rw [read]; rfl⟩
  · simp [failed, given, unread]
  · simp [failed, missing]

/-- The only entry with an id stays the only one. -/
theorem Continues.filter_eq {before after : List Tree} {entry : Tree} {id : String}
    (continues : Continues (before ++ [entry]) after)
    (fresh : ∀ old ∈ before, old.element.attribute? "Id" ≠ some id)
    (has : entry.element.attribute? "Id" = some id) :
    after.filter (fun entry => entry.element.attribute? "Id" = some id) = [entry] := by
  obtain ⟨added, rfl, new⟩ := continues
  have front : before.filter (fun entry => entry.element.attribute? "Id" = some id) = [] :=
    List.filter_eq_nil_iff.mpr fun old member => by simpa using fresh old member
  have back : added.filter (fun entry => entry.element.attribute? "Id" = some id) = [] := by
    refine List.filter_eq_nil_iff.mpr fun later member => ?_
    have other := new later member entry (List.mem_append_right _ (List.mem_singleton_self _))
    rw [has] at other
    simpa using other
  simp [List.filter_append, front, back, has]

/-- A source that an image is asked for from. -/
def Asked (requests : List Request) (source : Image.Source) : Prop :=
  ∃ request ∈ requests, request.image.source? = some source

/-- How an image is shown: by one relationship of its part, which was new when the image was asked for and
leads to a media part with the content of its source. -/
structure Displayed (sources : ImageSources) (before last : Gallery) (request : Request) (markup : String)
    (source : Image.Source) (media : String) : Prop where
  given : request.image.source? = some source
  stores : Stores sources last source media
  related : ∃ id target, markup = Gallery.markup id request.image ∧
    (∀ entry ∈ before.package.entries (relationsPart request.part),
      entry.element.attribute? "Id" ≠ some id) ∧
    (last.package.entries (relationsPart request.part)).filter
        (fun entry => entry.element.attribute? "Id" = some id) = [.node (relationship id target) []] ∧
    Package.resolveTarget request.part target = media

theorem after_append (sources : ImageSources) (gallery : Gallery) (front : List Request) (request : Request)
    (back : List Request) : after sources gallery (front ++ request :: back) =
      after sources (answer sources (after sources gallery front) request) back := by
  rw [after, List.foldl_append, List.foldl_cons]
  rfl

theorem displayed_after {front : List Request} {request : Request} {back : List Request}
    (booked : Booked sources used gallery)
    (isUsed : ∀ other ∈ front ++ request :: back, ∀ source, other.image.source? = some source → used source)
    (apart : ∀ source other, used source → used other → source.name = other.name → source = other)
    (room : gallery.Room (front ++ request :: back).length) {markup : String}
    (resolved : (after sources gallery front).resolve sources request.image request.part = .ok (next, markup)) :
    ∃ source media, (after sources gallery (front ++ request :: back)).media.lookup source.name = some media ∧
      Displayed sources (after sources gallery front) (after sources gallery (front ++ request :: back)) request
        markup source media := by
  rw [List.length_append, List.length_cons] at room
  obtain ⟨books, -, left⟩ := after_spec booked
    (fun other member => isUsed other (List.mem_append_left _ member)) room
  have asked := isUsed request (List.mem_append_right _ (List.mem_cons_self ..))
  obtain ⟨nextBooks, -, -, source, media, id, given, found, shown⟩ :=
    resolve_spec books asked (fun part => by have := left part; omega) resolved
  have answered : answer sources (after sources gallery front) request = next := by
    rw [answer, resolved]
  obtain ⟨-, -, nextRoom⟩ := answer_spec books asked left
  rw [answered, ← Nat.add_zero back.length] at nextRoom
  obtain ⟨lastBooks, onward, -⟩ := after_spec nextBooks
    (fun other member => isUsed other (List.mem_append_right _ (List.mem_cons_of_mem _ member))) nextRoom
  rw [after_append, answered]
  have known := onward.media _ _ found
  obtain ⟨other, otherUsed, named, stores⟩ := lastBooks.media _ _ known
  rw [apart other source otherUsed (asked source given) named] at stores
  refine ⟨source, media, known, given, stores, id, Package.relativeTarget request.part media, shown.markup,
    shown.fresh, ?_, ?_⟩
  · refine Continues.filter_eq ?_ shown.fresh rfl
    rw [← shown.related]
    exact onward.related request.part
  · obtain ⟨number, rfl⟩ := stores.named
    refine Package.resolveTarget_relativeTarget ?_ ?_ request.part
    · rw [head?_mediaName]
      decide
    · exact steps_mediaName (slash_not_mem_suffixOf _) number

section Requests

variable {package : Package} {requests front back : List Request}

theorem asked_of_mem {request : Request} (member : request ∈ requests) (source : Image.Source)
    (given : request.image.source? = some source) : Asked requests source :=
  ⟨request, member, given⟩

theorem booked_start (legible : ∀ name, IsRegistry name → package.Legible name) :
    Booked sources (Asked requests) ⟨package, []⟩ :=
  ⟨legible, by simp, by simp⟩

theorem booked_front (sources : ImageSources) (legible : ∀ name, IsRegistry name → package.Legible name)
    (room : (⟨package, []⟩ : Gallery).Room requests.length) (whole : requests = front ++ back) :
    Booked sources (Asked requests) (after sources ⟨package, []⟩ front) ∧
      (after sources ⟨package, []⟩ front).Room back.length := by
  rw [whole, List.length_append] at room
  obtain ⟨booked, -, left⟩ := after_spec (booked_start legible)
    (fun request member => asked_of_mem (whole ▸ List.mem_append_left back member)) room
  exact ⟨booked, left⟩

theorem entries_front (legible : ∀ name, IsRegistry name → package.Legible name)
    (room : (⟨package, []⟩ : Gallery).Room requests.length) (whole : requests = front ++ back)
    (part : String) :
    (after sources ⟨package, []⟩ front).package.entries (relationsPart part) <+:
      (after sources ⟨package, []⟩ requests).package.entries (relationsPart part) := by
  obtain ⟨booked, left⟩ := booked_front sources legible room whole
  rw [← Nat.add_zero back.length] at left
  obtain ⟨-, onward, -⟩ := after_spec booked
    (fun request member => asked_of_mem (whole ▸ List.mem_append_right front member)) left
  obtain ⟨added, same, -⟩ := onward.related part
  refine ⟨added, ?_⟩
  rw [← same, whole]
  simp only [after, List.foldl_append]

theorem resolve_front_isOk_iff (legible : ∀ name, IsRegistry name → package.Legible name)
    (room : (⟨package, []⟩ : Gallery).Room requests.length)
    (apart : ∀ source other, Asked requests source → Asked requests other → source.name = other.name →
      source = other) {request : Request} (whole : requests = front ++ request :: back) :
    (∃ shown, (after sources ⟨package, []⟩ front).resolve sources request.image request.part = .ok shown) ↔
      ∃ source, request.image.source? = some source ∧ (sources.content? source).isSome = true := by
  refine resolve_isOk_iff (booked_front sources legible room whole).1 request.part ?_ apart
  exact asked_of_mem (whole ▸ List.mem_append_right front (List.mem_cons_self ..))

/-- What a request that succeeds in a run is shown by at the end. -/
theorem displayed_front (legible : ∀ name, IsRegistry name → package.Legible name)
    (room : (⟨package, []⟩ : Gallery).Room requests.length)
    (apart : ∀ source other, Asked requests source → Asked requests other → source.name = other.name →
      source = other) {request : Request} (whole : requests = front ++ request :: back) {markup : String}
    (resolved : (after sources ⟨package, []⟩ front).resolve sources request.image request.part =
      .ok (next, markup)) :
    ∃ source media, (after sources ⟨package, []⟩ requests).media.lookup source.name = some media ∧
      Displayed sources (after sources ⟨package, []⟩ front) (after sources ⟨package, []⟩ requests) request
        markup source media := by
  subst whole
  exact displayed_after (booked_start legible) (fun request member => asked_of_mem member) apart room resolved

/-- At the end there is a media part for each source that is asked for and can be had. -/
theorem exists_media (legible : ∀ name, IsRegistry name → package.Legible name)
    (room : (⟨package, []⟩ : Gallery).Room requests.length)
    (apart : ∀ source other, Asked requests source → Asked requests other → source.name = other.name →
      source = other) {source : Image.Source} (asked : Asked requests source)
    (had : (sources.content? source).isSome = true) :
    ∃ media, (after sources ⟨package, []⟩ requests).media.lookup source.name = some media := by
  obtain ⟨request, member, given⟩ := asked
  obtain ⟨front, back, whole⟩ := List.append_of_mem member
  obtain ⟨⟨next, markup⟩, resolved⟩ :=
    (resolve_front_isOk_iff legible room apart whole).mpr ⟨source, given, had⟩
  obtain ⟨other, media, found, shown⟩ := displayed_front legible room apart whole resolved
  have same := shown.given
  rw [given, Option.some.injEq] at same
  exact ⟨media, same ▸ found⟩

end Requests

/-- The books of a gallery after any number of requests. Each image that can be had is shown, with one media
part for each source. Relationships are kept in their order, and all parts but registries as they are. -/
theorem books_after {package : Package} (sources : ImageSources) {requests : List Request}
    (legible : ∀ name, IsRegistry name → package.Legible name)
    (room : (⟨package, []⟩ : Gallery).Room requests.length)
    (apart : ∀ source other, Asked requests source → Asked requests other → source.name = other.name →
      source = other) :
    let reached := after sources ⟨package, []⟩
    (∀ front back, requests = front ++ back → ∀ part,
        (reached front).package.entries (relationsPart part) <+:
          (reached requests).package.entries (relationsPart part)) ∧
      (∀ name ∈ package.names, name ≠ contentTypes →
        (∀ request ∈ requests, name ≠ relationsPart request.part) →
        (reached requests).package.get? name = package.get? name) ∧
      ∃ media : Image.Source → String,
        (∀ source other, Asked requests source → Asked requests other →
          (sources.content? source).isSome = true → (sources.content? other).isSome = true →
          media source = media other → source = other) ∧
        ∀ front request back, requests = front ++ request :: back →
          ((∃ shown, (reached front).resolve sources request.image request.part = .ok shown) ↔
            ∃ source, request.image.source? = some source ∧ (sources.content? source).isSome = true) ∧
          ∀ next markup,
            (reached front).resolve sources request.image request.part = .ok (next, markup) →
            ∃ source, Displayed sources (reached front) (reached requests) request markup source
              (media source) := by
  intro reached
  refine ⟨fun front back whole => entries_front legible room whole, ?_,
    fun source => ((reached requests).media.lookup source.name).getD "", ?_, ?_⟩
  · intro name member notTypes notRelations
    refine (frame_after sources ⟨package, []⟩ requests).same name member ?_
    rintro ⟨request, listed, types | relations⟩
    · exact notTypes types
    · exact notRelations request listed relations
  · intro source other asked otherAsked had otherHad same
    obtain ⟨media, found⟩ := exists_media legible room apart asked had
    obtain ⟨media', found'⟩ := exists_media legible room apart otherAsked otherHad
    simp only [reached, found, found', Option.getD_some] at same
    have last := (booked_front sources legible room (List.append_nil requests).symm).1
    exact apart source other asked otherAsked
      (last.distinct source.name other.name media found (same ▸ found'))
  · intro front request back whole
    refine ⟨resolve_front_isOk_iff legible room apart whole, fun next markup resolved => ?_⟩
    obtain ⟨source, media, found, shown⟩ := displayed_front legible room apart whole resolved
    exact ⟨source, by simpa only [reached, found, Option.getD_some] using shown⟩

section Photos

def typesTree : Tree :=
  .node { tag := "Types" } []

def relationsTree : Tree :=
  .node { tag := "Relationships" } [.node { tag := "Relationship", attributes := [⟨"Id", "rId7"⟩] } []]

/-- A package in which the main document has a relationship. -/
def photoPackage : Package :=
  .ofParts [(contentTypes, "<Types/>".toUTF8), ("word/_rels/document.xml.rels",
    "<Relationships><Relationship Id=\"rId7\"/></Relationships>".toUTF8)]

/-- One file can be read, and nothing is found on the web. -/
def photoSources : ImageSources :=
  ⟨fun path => if path = "a.png" then some "photo".toUTF8 else none, fun _ => .error 404⟩

def photoRequests : List Request :=
  [⟨{ path := some "a.png" }, "word/document.xml"⟩, ⟨{ url := some "b.png" }, "word/document.xml"⟩,
    ⟨{ path := some "a.png" }, "word/header1.xml"⟩]

theorem names_photoPackage : photoPackage.names = [contentTypes, "word/_rels/document.xml.rels"] := by
  decide +kernel

theorem document?_types : photoPackage.document? contentTypes = some (.ofTree false typesTree) := by
  have parsed : Markup.Document.parse "<Types/>" = .ok (.ofTree false typesTree) := by cbv
  refine Package.document?_of_text ?_ parsed
  simp only [photoPackage, Package.get?, Package.ofParts]
  rfl

theorem document?_relations : photoPackage.document? "word/_rels/document.xml.rels" =
    some (.ofTree false relationsTree) := by
  have parsed : Markup.Document.parse
      "<Relationships><Relationship Id=\"rId7\"/></Relationships>" =
        .ok (.ofTree false relationsTree) := by cbv
  refine Package.document?_of_text ?_ parsed
  simp only [photoPackage, Package.get?, Package.ofParts]
  rfl

theorem legible_photoPackage (name : String) : photoPackage.Legible name := by
  intro present
  rw [names_photoPackage] at present
  simp only [List.mem_cons, List.not_mem_nil, or_false] at present
  rcases present with rfl | rfl
  · refine ⟨_, document?_types, ?_⟩
    rw [Markup.Document.liveTree_ofTree]
    exact .node (Markup.Element.writable_of_names "Types" [] ⟨rfl, rfl⟩ (by decide)) (by simp) (by simp)
  · refine ⟨_, document?_relations, ?_⟩
    rw [Markup.Document.liveTree_ofTree]
    refine .node (Markup.Element.writable_of_names "Relationships" [] ⟨rfl, rfl⟩ (by decide)) (by simp) ?_
    intro child member
    rw [List.mem_singleton.mp member]
    exact .node (Markup.Element.writable_of_names "Relationship" ["Id"] ⟨rfl, rfl⟩ (by decide))
      (by simp) (by simp)

theorem room_photoPackage : (⟨photoPackage, []⟩ : Gallery).Room photoRequests.length := by
  intro part
  by_cases present : relationsPart part ∈ photoPackage.names
  · rw [names_photoPackage] at present
    simp only [List.mem_cons, List.not_mem_nil, or_false] at present
    have same := present.resolve_left (relationsPart_ne_contentTypes part)
    rw [same, Package.entries, document?_relations, Option.map_some, Option.getD_some,
      Markup.Document.entries_ofTree]
    decide
  · rw [Package.entries_of_not_mem present]
    decide

/-- The first photo is shown. -/
theorem books_after_photos :
    ∃ (media : Image.Source → String) (next : Gallery) (markup : String) (source : Image.Source),
      (⟨photoPackage, []⟩ : Gallery).resolve photoSources { path := some "a.png" } "word/document.xml" =
          .ok (next, markup) ∧
        Displayed photoSources ⟨photoPackage, []⟩ (after photoSources ⟨photoPackage, []⟩ photoRequests)
          ⟨{ path := some "a.png" }, "word/document.xml"⟩ markup source (media source) := by
  have apart : ∀ source other, Asked photoRequests source → Asked photoRequests other →
      source.name = other.name → source = other := by
    have asked : ∀ source, Asked photoRequests source →
        source = .file "a.png" ∨ source = .address "b.png" := by
      rintro source ⟨request, member, given⟩
      simp only [photoRequests, List.mem_cons, List.not_mem_nil, or_false] at member
      rcases member with rfl | rfl | rfl <;> cases given <;> simp
    intro source other first second same
    rcases asked source first with rfl | rfl <;> rcases asked other second with rfl | rfl
    · rfl
    · exact absurd same (by decide)
    · exact absurd same (by decide)
    · rfl
  obtain ⟨-, -, media, -, shown⟩ :=
    books_after photoSources (fun name _ => legible_photoPackage name) room_photoPackage apart
  obtain ⟨succeeds, displays⟩ := shown [] _ _ rfl
  obtain ⟨⟨next, markup⟩, resolved⟩ := succeeds.mpr ⟨.file "a.png", rfl, rfl⟩
  obtain ⟨source, displayed⟩ := displays next markup resolved
  exact ⟨media, next, markup, source, resolved, displayed⟩

end Photos

end Gallery

end WordTemplate
