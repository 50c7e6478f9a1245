/-!
Triggers: `:on:command:scope` after a key asks for the command to be carried out on the scope when
the value of the key is empty, or when it is not.
-/

namespace WordTemplate

namespace Trigger

inductive Condition
  | empty
  | filled
deriving DecidableEq, Repr

inductive Command
  | remove
  | clear
deriving DecidableEq, Repr

inductive Scope
  | placeholder
  | cell
  | row
  | list
  | table
  | block
deriving DecidableEq, Repr

namespace Condition

def ofWord? : String → Option Condition
  | "empty" => some empty
  | "value" => some filled
  | "=" => some filled
  | _ => none

def word : Condition → String
  | empty => "empty"
  | filled => "="

end Condition

namespace Command

def word : Command → String
  | remove => "remove"
  | clear => "clear"

def ofWord? (text : String) : Option Command :=
  [remove, clear].find? fun command => command.word = text

end Command

namespace Scope

def word : Scope → String
  | placeholder => "placeholder"
  | cell => "cell"
  | row => "row"
  | list => "list"
  | table => "table"
  | block => "section"

def ofWord? (text : String) : Option Scope :=
  [placeholder, cell, row, list, table, block].find? fun scope => scope.word = text

end Scope

end Trigger

structure Trigger where
  condition : Trigger.Condition
  command : Trigger.Command
  scope : Trigger.Scope
deriving DecidableEq, Repr

namespace Trigger

/-- Exactly three modifiers, each a known word, are a trigger. -/
def ofModifiers? : List String → Option Trigger
  | [condition, command, scope] => do
    let condition ← Condition.ofWord? condition
    let command ← Command.ofWord? command
    let scope ← Scope.ofWord? scope
    return ⟨condition, command, scope⟩
  | _ => none

def fires (trigger : Trigger) (value : String) : Bool :=
  match trigger.condition with
  | .empty => value.isEmpty
  | .filled => !value.isEmpty

def written (trigger : Trigger) : String :=
  ":" ++ trigger.condition.word ++ ":" ++ trigger.command.word ++ ":" ++ trigger.scope.word

end Trigger

end WordTemplate
