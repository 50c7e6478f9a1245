import WordTemplate.Decimal.Shortest
import WordTemplate.Named

/-!
JSON values. The members of an object stand in the order of their names, each name once.
-/

namespace WordTemplate

inductive Json
  | null
  | boolean (value : Bool)
  | integer (value : Int)
  | real (negative : Bool) (magnitude : Decimal.Double)
  | string (value : String)
  | array (items : List Json)
  | object (members : List (String × Json))

namespace Json

inductive Kind
  | null
  | boolean
  | number
  | string
  | array
  | object
deriving DecidableEq, Repr

def Kind.name : Kind → String
  | null => "null"
  | boolean => "boolean"
  | number => "number"
  | string => "string"
  | array => "array"
  | object => "object"

def kind : Json → Kind
  | .null => .null
  | .boolean _ => .boolean
  | .integer _ => .number
  | .real _ _ => .number
  | .string _ => .string
  | .array _ => .array
  | .object _ => .object

/-- An object with the given members, of which later ones win. -/
def ofMembers (members : List (String × Json)) : Json :=
  .object (Named.ofList members)

def writeReal (negative : Bool) (magnitude : Decimal.Double) : String :=
  (if negative then "-" else "") ++ String.ofList magnitude.write

end Json

end WordTemplate
