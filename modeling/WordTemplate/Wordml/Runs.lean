import WordTemplate.Text.Pieces
import WordTemplate.Wordml.Vocabulary

/-!
Repair of markers that an editor has spread over several runs. Neighbouring runs with the same
properties are joined first; then a text with an unfinished marker takes in the texts that follow it
in its paragraph until the marker is complete.
-/

namespace WordTemplate.Wordml

open Markup

/-- Whether double braces are left open, or a brace at the end may be the first of two. -/
def opensFrom (depth : Nat) : List Char → Bool
  | [] => depth > 0
  | ['{'] => true
  | '{' :: '{' :: rest => opensFrom (depth + 1) rest
  | '}' :: '}' :: rest => opensFrom (depth - 1) rest
  | _ :: rest => opensFrom depth rest

def hasOpenMarker (content : String) : Bool :=
  opensFrom 0 content.toList

/-- The properties of a run as they are written; runs without properties have none. -/
def writtenProperties (document : Document) (id : NodeId) : String :=
  match document.childByTag? id runProperties with
  | some properties => document.writeNode properties
  | none => ""

/-- The text of a run that holds one text and beside it only properties. -/
def soleText? (document : Document) (id : NodeId) : Option NodeId :=
  match (document.children id).filter fun child => document.tag child != runProperties with
  | [child] => if document.tag child = text then some child else none
  | _ => none

/-- The text that the next run may be joined to, with the properties of its run. -/
structure Anchor where
  text : NodeId
  properties : String

/-- Joins runs of a list of siblings, and counts them. -/
def joinRuns (document : Document) (anchor : Option Anchor) : List NodeId → Document × Nat
  | [] => (document, 0)
  | child :: rest =>
    match if document.tag child = run then soleText? document child else none with
    | none => joinRuns document none rest
    | some found =>
      let properties := writtenProperties document child
      match anchor.filter fun anchor => anchor.properties = properties with
      | some anchor =>
        let document := document.pushText anchor.text (document.text found)
        let joined := preserveSpace document anchor.text
        let (document, count) := joinRuns (joined.delete child) (some anchor) rest
        (document, count + 1)
      | none => joinRuns document (some ⟨found, properties⟩) rest

/-- Does something to each live paragraph of a scope, and adds up what is counted. -/
def eachParagraph (change : Document → NodeId → Document × Nat) (document : Document)
    (scope : NodeId) : Document × Nat :=
  (paragraphsFrom document scope).foldl
    (fun (document, total) id =>
      if document.isLive id then
        let (document, count) := change document id
        (document, total + count)
      else (document, total))
    (document, 0)

/-- Joins neighbouring runs of equal properties in the paragraphs of a scope. -/
def mergeAdjacentRuns (document : Document) (scope : NodeId) : Document × Nat :=
  eachParagraph (fun document id => joinRuns document none (document.children id)) document scope

/-- Cuts a list of texts behind the first one that leaves no marker open, when it is added to what
has been joined so far. -/
def cutClosing? (document : Document) (joined : String) :
    List NodeId → Option (List NodeId × List NodeId)
  | [] => none
  | id :: rest =>
    let joined := joined ++ document.text id
    if hasOpenMarker joined then
      (cutClosing? document joined rest).map fun (taken, after) => (id :: taken, after)
    else some ([id], rest)

theorem length_of_cutClosing? {document : Document} {joined : String}
    {ids taken after : List NodeId} (cut : cutClosing? document joined ids = some (taken, after)) :
    after.length < ids.length := by
  induction ids generalizing joined taken with
  | nil => simp [cutClosing?] at cut
  | cons id rest ih =>
    simp only [cutClosing?] at cut
    split at cut
    · obtain ⟨⟨inner, after'⟩, found, same⟩ := Option.map_eq_some_iff.1 cut
      simp only [Prod.mk.injEq] at same
      obtain ⟨_, rfl⟩ := same
      have shorter := ih found
      simp only [List.length_cons]
      omega
    · simp only [Option.some.injEq, Prod.mk.injEq] at cut
      simp [← cut.2]

/-- Moves the content of texts into another text and removes them. -/
def absorb (document : Document) (target : NodeId) (ids : List NodeId) : Document :=
  ids.foldl
    (fun document id => deleteText (document.pushText target (document.text id)) id)
    document

/-- Completes unfinished markers in a list of texts, and counts the texts that were taken in. -/
def completeMarkers (document : Document) (ids : List NodeId) : Document × Nat :=
  match ids with
  | [] => (document, 0)
  | id :: rest =>
    let cut? :=
      if hasOpenMarker (document.text id) then cutClosing? document (document.text id) rest
      else none
    match _cut : cut? with
    | some (taken, after) =>
      let (document, count) := completeMarkers (preserveSpace (absorb document id taken) id) after
      (document, taken.length + count)
    | none => completeMarkers document rest
termination_by ids.length
decreasing_by
  · simp only [List.length_cons]
    by_cases opened : hasOpenMarker (document.text id) = true
    · simp only [cut?, opened] at _cut
      have := length_of_cutClosing? _cut
      omega
    · simp [cut?, opened] at _cut
  · simp

/-- Completes unfinished markers in the paragraphs of a scope. -/
def mergeBrokenMarkers (document : Document) (scope : NodeId) : Document × Nat :=
  eachParagraph (fun document id => completeMarkers document (ownTexts document id)) document scope

/-- Two opening braces, without which there is no marker. -/
def holdsMarkerStart (content : String) : Bool :=
  Text.occursIn ['{', '{'] content.toList

/-- Repairs the runs of every paragraph of a document in which a marker may start. -/
def repairRuns (document : Document) : Document :=
  (paragraphsFrom document document.root).foldl
    (fun document id =>
      if document.isLive id && holdsMarkerStart (document.allText id) then
        (mergeBrokenMarkers (mergeAdjacentRuns document id).1 id).1
      else document)
    document

end WordTemplate.Wordml
