import WordTemplate.Named

/-!
TOML values, and the rules by which tables grow. A table is opened once by a header; tables that
headers or dotted keys pass are made on the way. An inline table never grows.
-/

namespace WordTemplate.Toml

/-- How a table came to be. -/
inductive Origin
  | header
  /-- On the way to the table of a header. -/
  | implied
  /-- On the way to the value of a dotted key, whether or not a header implied it before. -/
  | dotted
  | inline
deriving DecidableEq, Repr

inductive Value
  | string (text : String)
  | integer (value : Int)
  | real
  | boolean (value : Bool)
  | moment
  | array (items : List Value)
  /-- An array whose tables are opened by headers in double brackets. -/
  | tables (items : List Value)
  | table (origin : Origin) (entries : List (String × Value))

abbrev Entries := List (String × Value)

/-- A table that is being filled. -/
structure Table where
  origin : Origin
  entries : Entries := []

namespace Table

def toValue (table : Table) : Value :=
  .table table.origin table.entries

def put (table : Table) (key : String) (value : Value) : Table :=
  { table with entries := Named.insert key value table.entries }

/-- Changes the table that keys lead to; tables that are missing on the way are made. -/
def changeAt (dotted : Bool) (change : Table → Option Table) :
    List String → Table → Option Table
  | [], table => change table
  | key :: rest, table => do
    match Named.get? table.entries key with
    | none =>
      let inner ← changeAt dotted change rest { origin := if dotted then .dotted else .implied }
      return table.put key inner.toValue
    | some (.table origin entries) =>
      -- Nothing leads into an inline table, and no dotted key into a table that has a header.
      if origin = .inline || (dotted && origin = .header) then none
      else
        -- Dotted keys make the implied tables on their way theirs.
        let inner ← changeAt dotted change rest ⟨if dotted then .dotted else origin, entries⟩
        return table.put key inner.toValue
    | some (.tables items) =>
      match items.getLast? with
      | some (.table origin entries) =>
        let inner ← changeAt dotted change rest ⟨origin, entries⟩
        return table.put key (.tables (items.dropLast ++ [inner.toValue]))
      | _ => none
    | some _ => none

/-- Adds a value under a key that is new in the table. -/
def add? (key : String) (value : Value) (table : Table) : Option Table :=
  if Named.contains table.entries key then none else some (table.put key value)

/-- Adds a value under a dotted key. Only tables made by dotted keys take values through dotted
keys, and they take none through others. -/
def addDotted? (keys : List String) (value : Value) (table : Table) : Option Table :=
  match keys.getLast? with
  | none => none
  | some key =>
    let path := keys.dropLast
    let change (inner : Table) : Option Table :=
      if decide (inner.origin = .dotted) = path.isEmpty then none else inner.add? key value
    changeAt true change path table

/-- Opens the table of a header. It may be there already if other headers only passed it. -/
def openTable? (keys : List String) (table : Table) : Option Table :=
  match keys.getLast? with
  | none => none
  | some key =>
    let change (inner : Table) : Option Table :=
      match Named.get? inner.entries key with
      | none => some (inner.put key (.table .header []))
      | some (.table .implied entries) => some (inner.put key (.table .header entries))
      | some _ => none
    changeAt false change keys.dropLast table

/-- Opens one more table in the array of a header in double brackets. -/
def openItem? (keys : List String) (table : Table) : Option Table :=
  match keys.getLast? with
  | none => none
  | some key =>
    let change (inner : Table) : Option Table :=
      match Named.get? inner.entries key with
      | none => some (inner.put key (.tables [.table .header []]))
      | some (.tables items) => some (inner.put key (.tables (items ++ [.table .header []])))
      | some _ => none
    changeAt false change keys.dropLast table

end Table

end WordTemplate.Toml
