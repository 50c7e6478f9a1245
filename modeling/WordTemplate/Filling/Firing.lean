import WordTemplate.Filling.Lists
import WordTemplate.Params.Lookup
import WordTemplate.Placeholder

/-!
Carrying out triggers. The scope of a trigger is looked up from where its placeholder stands; all
nodes of the scope are removed, or all their text is.
-/

namespace WordTemplate.Filling

open Markup

def targets (document : Document) (origin : NodeId) : Trigger.Scope → List NodeId
  | .placeholder => [(document.closest? origin [Wordml.text]).getD origin]
  | .cell => (document.closest? origin [Wordml.cell]).toList
  | .row =>
    ((document.closest? origin [Wordml.row]).or
      (document.closest? origin [Wordml.paragraph])).toList
  | .list =>
    match document.closest? origin [Wordml.paragraph] with
    | some paragraph =>
      if (list? document paragraph).isSome then listMembers document paragraph else []
    | none => []
  | .table => (document.closest? origin [Wordml.table]).toList
  | .block =>
    match document.closest? origin [Wordml.table] with
    | some table => [table]
    | none =>
      match document.closest? origin [Wordml.paragraph] with
      | some paragraph => listMembers document paragraph
      | none => []

def carryOut (document : Document) (command : Trigger.Command) (id : NodeId) : Document :=
  match command with
  | .remove => document.delete id
  | .clear => document.clearTextDeep id

/-- Carries a trigger out if it fires for the value and its origin is still there, and tells whether
there was anything to do. -/
def evaluate (document : Document) (origin : NodeId) (trigger : Trigger) (value : String) :
    Document × Bool :=
  if trigger.fires value && document.isLive origin then
    let found := targets document origin trigger.scope
    (found.foldl (fun document id => carryOut document trigger.command id) document,
      !found.isEmpty)
  else (document, false)

/-- A trigger that waits until all values of a pass have been put in. -/
structure Firing where
  text : NodeId
  /-- What held the text; it stands in for a text that is gone. -/
  holder : Option NodeId
  trigger : Trigger
  value : String

namespace Firing

def evaluate (document : Document) (firing : Firing) : Document :=
  let origin := if document.isLive firing.text then some firing.text else firing.holder
  match origin with
  | some origin => (Filling.evaluate document origin firing.trigger firing.value).1
  | none => document

def evaluateAll (document : Document) (firings : List Firing) : Document :=
  firings.foldl evaluate document

end Firing

/-- The triggers of placeholders in a text for which there is no parameter. -/
def unsetTriggers (document : Document) (params : Params) (id : NodeId) :
    List (NodeId × Trigger) :=
  (Placeholder.scan (document.text id)).filterMap fun placeholder =>
    if (params.resolve placeholder.key).isEmpty then
      placeholder.trigger?.map fun trigger => (id, trigger)
    else none

/-- Evaluates the triggers of placeholders without parameter, as if their values were empty. -/
def sweepUnset (document : Document) (params : Params) : Document :=
  ((document.findAll document.root [Wordml.text]).flatMap (unsetTriggers document params)).foldl
    (fun document (id, trigger) => (evaluate document id trigger "").1)
    document

end WordTemplate.Filling
