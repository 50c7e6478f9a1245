import WordTemplate.Proofs.Placeholder.Reading

/-! Cutting texts into pieces. The pieces of a text are known by what stands at each place; when
placeholders are put in the place of others, the pieces of the new text are the new placeholders and
the old literals. -/

namespace WordTemplate

namespace Piece

/-- The characters of pieces, one piece after the other. -/
def sources (pieces : List Piece) : List Char :=
  pieces.flatMap source

@[simp]
theorem sources_nil : sources [] = [] := rfl

@[simp]
theorem sources_cons (piece : Piece) (rest : List Piece) :
    sources (piece :: rest) = piece.source ++ sources rest := rfl

def rendered (replace : Placeholder → String) : Piece → List Char
  | literal text => text
  | marker placeholder => (replace placeholder).toList

theorem toList_render (replace : Placeholder → String) (pieces : List Piece) :
    (render replace pieces).toList = pieces.flatMap (rendered replace) := by
  rw [render, String.toList_ofList]
  apply List.flatMap_congr
  intro piece _
  cases piece <;> rfl

theorem render_append (replace : Placeholder → String) (front back : List Piece) :
    render replace (front ++ back) = render replace front ++ render replace back := by
  rw [← String.toList_inj, String.toList_append, toList_render, toList_render, toList_render,
    List.flatMap_append]

theorem dropWhile_plain {body : List Char} (plain : ∀ c ∈ body, isBrace c = false) {c : Char}
    (brace : isBrace c = true) (rest : List Char) :
    (body ++ c :: rest).dropWhile (fun c => !isBrace c) = c :: rest := by
  rw [List.dropWhile_append_of_pos fun other member => by simp [plain other member],
    List.dropWhile_cons_of_neg (by simp [brace])]

theorem takeWhile_plain {body : List Char} (plain : ∀ c ∈ body, isBrace c = false) {c : Char}
    (brace : isBrace c = true) (rest : List Char) :
    (body ++ c :: rest).takeWhile (fun c => !isBrace c) = body := by
  rw [List.takeWhile_append_of_pos fun other member => by simp [plain other member],
    List.takeWhile_cons_of_neg (by simp [brace]), List.append_nil]

theorem plain_takeWhile (text : List Char) :
    ∀ c ∈ text.takeWhile (fun c => !isBrace c), isBrace c = false := by
  have all := List.all_takeWhile (p := fun c => !isBrace c) (l := text)
  intro c member
  simpa using List.all_eq_true.mp all c member

/-- A marker is cut off exactly where one stands. -/
theorem cutMarker?_eq_some {text body after : List Char} :
    cutMarker? text = some (body, after) ↔
      text = '{' :: '{' :: body ++ '}' :: '}' :: after ∧ ∀ c ∈ body, isBrace c = false := by
  constructor
  · intro cut
    unfold cutMarker? at cut
    split at cut
    · rename_i rest
      split at cut
      · rename_i tail stop
        simp only [Option.some.injEq, Prod.mk.injEq] at cut
        obtain ⟨rfl, rfl⟩ := cut
        refine ⟨?_, plain_takeWhile rest⟩
        have whole := List.takeWhile_append_dropWhile (p := fun c => !isBrace c) (l := rest)
        rw [stop] at whole
        rw [List.cons_append, List.cons_append, whole]
      · simp at cut
    · simp at cut
  · rintro ⟨rfl, plain⟩
    simp only [List.cons_append, cutMarker?]
    rw [dropWhile_plain plain (by decide), takeWhile_plain plain (by decide)]
    rfl

inductive Cuts : List Char → List Piece → Prop
  | nil : Cuts [] []
  | marker {body after : List Char} {pieces : List Piece}
      (plain : ∀ c ∈ body, isBrace c = false) (rest : Cuts after pieces) :
      Cuts ('{' :: '{' :: body ++ '}' :: '}' :: after) (ofMarker body :: pieces)
  | literal {c : Char} {after : List Char} {pieces : List Piece}
      (open_ : cutMarker? (c :: after) = none) (rest : Cuts after pieces) :
      Cuts (c :: after) (literal [c] :: pieces)

theorem split_nil : split [] = [] := by
  rw [split]

theorem split_of_cutMarker? {text body after : List Char}
    (cut : cutMarker? text = some (body, after)) : split text = ofMarker body :: split after := by
  cases text with
  | nil => simp [cutMarker?] at cut
  | cons c rest =>
      rw [split]
      split
      · rename_i body' after' cut'
        rw [cut] at cut'
        simp only [Option.some.injEq, Prod.mk.injEq] at cut'
        obtain ⟨rfl, rfl⟩ := cut'
        rfl
      · rename_i cut'
        rw [cut] at cut'
        simp at cut'

theorem split_marker {body : List Char} (plain : ∀ c ∈ body, isBrace c = false)
    (after : List Char) :
    split ('{' :: '{' :: body ++ '}' :: '}' :: after) = ofMarker body :: split after :=
  split_of_cutMarker? (cutMarker?_eq_some.mpr ⟨rfl, plain⟩)

theorem split_literal {c : Char} {after : List Char} (open_ : cutMarker? (c :: after) = none) :
    split (c :: after) = literal [c] :: split after := by
  rw [split]
  split
  · rename_i body' after' cut'
    rw [open_] at cut'
    simp at cut'
  · rfl

theorem cuts_split (text : List Char) : Cuts text (split text) := by
  induction size : text.length using Nat.strongRecOn generalizing text with
  | ind length ih =>
      cases text with
      | nil =>
          rw [split_nil]
          exact .nil
      | cons c rest =>
          cases cut : cutMarker? (c :: rest) with
          | none =>
              rw [split_literal cut]
              exact .literal cut (ih rest.length (by rw [← size]; simp) rest rfl)
          | some found =>
              obtain ⟨body, after⟩ := found
              have shorter := length_of_cutMarker? cut
              obtain ⟨whole, plain⟩ := cutMarker?_eq_some.mp cut
              rw [split_of_cutMarker? cut, whole]
              exact .marker plain (ih after.length (by omega) after rfl)

theorem Cuts.split_eq {text : List Char} {pieces : List Piece} (cuts : Cuts text pieces) :
    split text = pieces := by
  induction cuts with
  | nil => exact split_nil
  | marker plain _ ih => rw [split_marker plain, ih]
  | literal open_ _ ih => rw [split_literal open_, ih]

theorem source_ofMarker (body : List Char) :
    (ofMarker body).source = '{' :: '{' :: body ++ ['}', '}'] := by
  rw [ofMarker]
  cases read : Placeholder.ofBody? body with
  | none => rfl
  | some placeholder =>
      simp only [source, Placeholder.toList_source, (Placeholder.ofBody?_spec read).1]

theorem Cuts.sources_eq {text : List Char} {pieces : List Piece} (cuts : Cuts text pieces) :
    sources pieces = text := by
  induction cuts with
  | nil => rfl
  | marker plain _ ih => simp [source_ofMarker, ih]
  | literal open_ _ ih => simp [source, ih]

theorem sources_split (text : List Char) : sources (split text) = text :=
  (cuts_split text).sources_eq

theorem Cuts.proper {text : List Char} {pieces : List Piece} (cuts : Cuts text pieces) :
    ∀ placeholder, Piece.marker placeholder ∈ pieces → placeholder.Proper := by
  induction cuts with
  | nil => simp
  | @marker body after pieces plain _ ih =>
      intro placeholder member
      rcases List.mem_cons.mp member with here | later
      · rw [ofMarker] at here
        cases read : Placeholder.ofBody? body with
        | none => simp [read] at here
        | some found =>
            simp only [read, Piece.marker.injEq] at here
            exact here ▸ Placeholder.proper_of_ofBody? read plain
      · exact ih placeholder later
  | literal open_ _ ih =>
      intro placeholder member
      rcases List.mem_cons.mp member with here | later
      · simp at here
      · exact ih placeholder later

theorem mem_filterMap_placeholder? {pieces : List Piece} {placeholder : Placeholder} :
    placeholder ∈ pieces.filterMap placeholder? ↔ marker placeholder ∈ pieces := by
  rw [List.mem_filterMap]
  constructor
  · rintro ⟨piece, listed, found⟩
    cases piece with
    | literal _ => simp [placeholder?] at found
    | marker other =>
        simp only [placeholder?, Option.some.injEq] at found
        exact found ▸ listed
  · exact fun listed => ⟨_, listed, rfl⟩

theorem mem_scan_iff {text : String} {placeholder : Placeholder} :
    placeholder ∈ Placeholder.scan text ↔ marker placeholder ∈ ofText text :=
  mem_filterMap_placeholder?

theorem proper_of_mem_scan {text : String} {placeholder : Placeholder}
    (member : placeholder ∈ Placeholder.scan text) : placeholder.Proper :=
  (cuts_split _).proper placeholder (mem_scan_iff.mp member)

/-- Two texts that agree up to their ends or up to where a marker starts in both. -/
def SameStart (first second : List Char) : Prop :=
  ∃ front, (first = front ∧ second = front) ∨
    ∃ left right, first = front ++ '{' :: '{' :: left ∧ second = front ++ '{' :: '{' :: right

theorem SameStart.append {first second : List Char} (same : SameStart first second)
    (front : List Char) : SameStart (front ++ first) (front ++ second) := by
  obtain ⟨shared, ends | ⟨left, right, starts⟩⟩ := same
  · exact ⟨front ++ shared, .inl ⟨by rw [ends.1], by rw [ends.2]⟩⟩
  · exact ⟨front ++ shared, .inr ⟨left, right, by rw [starts.1, List.append_assoc],
      by rw [starts.2, List.append_assoc]⟩⟩

theorem exists_append_of_not_mem {first after front right : List Char} {c : Char}
    (absent : c ∉ first) (same : first ++ after = front ++ c :: right) :
    ∃ tail, front = first ++ tail := by
  rcases List.append_eq_append_iff.mp same with ⟨tail, whole, -⟩ | ⟨tail, whole, rest⟩
  · exact ⟨tail, whole⟩
  · cases tail with
    | nil => exact ⟨[], by simpa using whole.symm⟩
    | cons d others =>
        obtain ⟨rfl, -⟩ := List.cons.inj rest
        exact absurd (whole ▸ by simp) absent

/-- No marker reaches beyond the start of another one. -/
theorem SameStart.cutMarker? {first second : List Char} (same : SameStart first second) {c : Char}
    (cut : Piece.cutMarker? (c :: first) = none) : Piece.cutMarker? (c :: second) = none := by
  cases found : Piece.cutMarker? (c :: second) with
  | none => rfl
  | some parts =>
      exfalso
      obtain ⟨body, after⟩ := parts
      obtain ⟨whole, plain⟩ := cutMarker?_eq_some.mp found
      rw [List.cons_append, List.cons_append, List.cons.injEq] at whole
      obtain ⟨rfl, rfl⟩ := whole
      -- Behind its second brace the marker holds no opening one, so it ends in what both texts share.
      have noBrace : '{' ∉ body ++ ['}', '}'] := by
        rw [List.mem_append, not_or]
        exact ⟨fun member => absurd (plain _ member) (by decide), by decide⟩
      obtain ⟨tail, rfl⟩ : ∃ tail, first = '{' :: body ++ '}' :: '}' :: tail := by
        obtain ⟨front, ⟨shared, ends⟩ | ⟨left, right, rfl, ends⟩⟩ := same
        · exact ⟨after, shared.trans ends.symm⟩
        · cases front with
          | nil =>
              obtain ⟨-, ends⟩ := List.cons.inj ends
              have ends : body ++ ['}', '}'] ++ after = [] ++ '{' :: right := by simpa using ends
              obtain ⟨tail, impossible⟩ := exists_append_of_not_mem noBrace ends
              simp at impossible
          | cons d others =>
              obtain ⟨rfl, ends⟩ := List.cons.inj ends
              have ends : body ++ ['}', '}'] ++ after = others ++ '{' :: '{' :: right := by
                simpa using ends
              obtain ⟨tail, rfl⟩ := exists_append_of_not_mem noBrace ends
              exact ⟨tail ++ '{' :: '{' :: left, by simp⟩
      have standing : Piece.cutMarker? ('{' :: '{' :: body ++ '}' :: '}' :: tail) =
          some (body, tail) := cutMarker?_eq_some.mpr ⟨rfl, plain⟩
      cases cut.symm.trans standing

def mapPlaceholder (change : Placeholder → Placeholder) : Piece → Piece
  | literal text => literal text
  | marker placeholder => marker (change placeholder)

theorem sameStart_mapPlaceholder (change : Placeholder → Placeholder) (pieces : List Piece) :
    SameStart (sources pieces) (sources (pieces.map (mapPlaceholder change))) := by
  induction pieces with
  | nil => exact ⟨[], .inl ⟨rfl, rfl⟩⟩
  | cons piece rest ih =>
      cases piece with
      | literal text => exact ih.append text
      | marker placeholder =>
          refine ⟨[], .inr ⟨placeholder.body ++ ['}', '}'] ++ sources rest,
            (change placeholder).body ++ ['}', '}'] ++
              sources (rest.map (mapPlaceholder change)), ?_, ?_⟩⟩
          · simp [source, Placeholder.toList_source]
          · simp [source, mapPlaceholder, Placeholder.toList_source]

theorem Cuts.mapPlaceholder (change : Placeholder → Placeholder) {text : List Char}
    {pieces : List Piece} (cuts : Cuts text pieces)
    (proper : ∀ placeholder, Piece.marker placeholder ∈ pieces → (change placeholder).Proper) :
    Cuts (sources (pieces.map (Piece.mapPlaceholder change)))
      (pieces.map (Piece.mapPlaceholder change)) := by
  induction cuts with
  | nil => exact .nil
  | @marker body after pieces plain _ ih =>
      have rest := ih fun placeholder member => proper placeholder (List.mem_cons_of_mem _ member)
      rw [List.map_cons, sources_cons]
      cases read : Placeholder.ofBody? body with
      | none =>
          have unread : ofMarker body = .literal ('{' :: '{' :: body ++ ['}', '}']) := by
            rw [ofMarker, read]
          have cuts := Cuts.marker plain rest
          rw [unread] at cuts ⊢
          simpa [Piece.mapPlaceholder, source] using cuts
      | some found =>
          have readAs : ofMarker body = .marker found := by
            rw [ofMarker, read]
          have changed := proper found (by rw [readAs]; exact List.mem_cons_self ..)
          have cuts := Cuts.marker changed.plain rest
          rw [ofMarker, changed.reads] at cuts
          rw [readAs]
          simpa [Piece.mapPlaceholder, source, Placeholder.toList_source] using cuts
  | @literal c after pieces open_ inner ih =>
      have rest := ih fun placeholder member => proper placeholder (List.mem_cons_of_mem _ member)
      have same := sameStart_mapPlaceholder change pieces
      rw [inner.sources_eq] at same
      exact .literal (same.cutMarker? open_) rest

end Piece

namespace Placeholder

def rewrite (change : Placeholder → Placeholder) (text : String) : String :=
  Piece.render (fun placeholder => (change placeholder).source) (Piece.ofText text)

theorem toList_rewrite (change : Placeholder → Placeholder) (text : String) :
    (rewrite change text).toList =
      Piece.sources ((Piece.ofText text).map (Piece.mapPlaceholder change)) := by
  rw [rewrite, Piece.render, String.toList_ofList, Piece.sources, List.flatMap_map]
  apply List.flatMap_congr
  intro piece _
  cases piece <;> rfl

theorem ofText_rewrite {change : Placeholder → Placeholder} {text : String}
    (proper : ∀ placeholder ∈ scan text, (change placeholder).Proper) :
    Piece.ofText (rewrite change text) =
      (Piece.ofText text).map (Piece.mapPlaceholder change) := by
  have cuts := (Piece.cuts_split text.toList).mapPlaceholder change (by
    intro placeholder member
    exact proper placeholder (Piece.mem_scan_iff.mpr member))
  rw [Piece.ofText, toList_rewrite]
  exact cuts.split_eq

/-- The placeholders of a text are the new ones after they have been put in. -/
theorem scan_rewrite {change : Placeholder → Placeholder} {text : String}
    (proper : ∀ placeholder ∈ scan text, (change placeholder).Proper) :
    scan (rewrite change text) = (scan text).map change := by
  rw [scan, ofText_rewrite proper, scan, List.filterMap_map, List.map_filterMap]
  apply List.filterMap_congr
  intro piece _
  cases piece <;> rfl

theorem rewrite_congr {first second : Placeholder → Placeholder} {text : String}
    (same : ∀ placeholder ∈ scan text, first placeholder = second placeholder) :
    rewrite first text = rewrite second text := by
  rw [← String.toList_inj, toList_rewrite, toList_rewrite]
  congr 1
  apply List.map_congr_left
  intro piece member
  cases piece with
  | literal content => rfl
  | marker placeholder =>
      have listed : placeholder ∈ scan text := Piece.mem_scan_iff.mpr member
      rw [Piece.mapPlaceholder, Piece.mapPlaceholder, same placeholder listed]

theorem render_ofText {replace : Placeholder → String} {text : String}
    (same : ∀ placeholder ∈ scan text, replace placeholder = placeholder.source) :
    Piece.render replace (Piece.ofText text) = text := by
  rw [← String.toList_inj, Piece.render, String.toList_ofList]
  refine Eq.trans (List.flatMap_congr fun piece member => ?_) (Piece.sources_split text.toList)
  cases piece with
  | literal content => rfl
  | marker placeholder =>
      exact congrArg String.toList (same placeholder (Piece.mem_scan_iff.mpr member))

/-- Replacing placeholders that have been put in for others. -/
theorem render_ofText_rewrite {change : Placeholder → Placeholder} {text : String}
    (proper : ∀ placeholder ∈ scan text, (change placeholder).Proper)
    (replace : Placeholder → String) :
    Piece.render replace (Piece.ofText (rewrite change text)) =
      Piece.render (replace ∘ change) (Piece.ofText text) := by
  rw [← String.toList_inj, Piece.toList_render, Piece.toList_render, ofText_rewrite proper,
    List.flatMap_map]
  apply List.flatMap_congr
  intro piece _
  cases piece <;> rfl

theorem render_congr {first second : Placeholder → String} {text : String}
    (same : ∀ placeholder ∈ scan text, first placeholder = second placeholder) :
    Piece.render first (Piece.ofText text) = Piece.render second (Piece.ofText text) := by
  rw [← String.toList_inj, Piece.toList_render, Piece.toList_render]
  refine List.flatMap_congr fun piece member => ?_
  cases piece with
  | literal content => rfl
  | marker placeholder =>
      exact congrArg String.toList (same placeholder (Piece.mem_scan_iff.mpr member))

theorem rewrite_rewrite {first second : Placeholder → Placeholder} {text : String}
    (proper : ∀ placeholder ∈ scan text, (first placeholder).Proper) :
    rewrite second (rewrite first text) = rewrite (second ∘ first) text := by
  rw [← String.toList_inj, toList_rewrite, toList_rewrite, ofText_rewrite proper, List.map_map]
  congr 1
  apply List.map_congr_left
  intro piece _
  cases piece <;> rfl

theorem rewrite_id (text : String) : rewrite id text = text := by
  have kept : (Piece.ofText text).map (Piece.mapPlaceholder id) = Piece.ofText text := by
    conv_rhs => rw [← List.map_id (Piece.ofText text)]
    apply List.map_congr_left
    intro piece _
    cases piece <;> rfl
  rw [← String.toList_inj, toList_rewrite, kept]
  exact Piece.sources_split _

theorem rewrite_self {change : Placeholder → Placeholder} {text : String}
    (same : ∀ placeholder ∈ scan text, change placeholder = placeholder) :
    rewrite change text = text :=
  (rewrite_congr same).trans (rewrite_id text)

end Placeholder

end WordTemplate
