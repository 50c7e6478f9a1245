import WordTemplate.Json.Reader
import WordTemplate.Key
import WordTemplate.Params.Image
import WordTemplate.Text.Blank

/-!
The parameters of a template: the tree of values that fill it. Every parameter knows its absolute
key, which leads to it through the tree, and its compact key, in which the positions of list items
are missing.
-/

namespace WordTemplate

namespace Param

inductive Kind
  | scalar
  | object
  | list
  | image (image : Image)
deriving DecidableEq, Repr

end Param

structure Param where
  key : String
  /-- The text of a scalar, or the markup of an image that has been found. -/
  value : String
  kind : Param.Kind
  absoluteKey : String
  compactKey : String
  /-- One at the top level. -/
  level : Nat
  children : List Param

namespace Param

def isList (param : Param) : Bool :=
  param.kind = .list

def isScalar (param : Param) : Bool :=
  param.kind = .scalar

def image? (param : Param) : Option Image :=
  match param.kind with
  | .image image => some image
  | _ => none

/-- Whether the markup of the image is known. -/
def isResolvedImage (param : Param) : Bool :=
  param.image?.isSome && !param.value.isEmpty

def itemCount (param : Param) : Nat :=
  if param.isList then param.children.length else 0

def child? (param : Param) (key : String) : Option Param :=
  param.children.find? fun child => child.key = key

/-- Where a parameter is put: the keys and the level of what holds it. -/
structure Place where
  absoluteKey : String := ""
  compactKey : String := ""
  level : Nat := 0
  inList : Bool := false

/-- A parameter at a place. Blanks at the end of its name do not belong to its key. -/
def make (place : Place) (name value : String) (kind : Kind) (children : List Param) : Param :=
  let key := String.ofList (Text.trimEnd name.toList)
  { key, value, kind, children
    absoluteKey := Key.join place.absoluteKey key
    compactKey := if place.inList then place.compactKey else Key.join place.compactKey key
    level := place.level + 1 }

/-- The place of what a parameter holds. -/
def inner (place : Place) (name : String) (kind : Kind) : Place :=
  let param := make place name "" kind []
  ⟨param.absoluteKey, param.compactKey, param.level, param.isList⟩

mutual

/-- Null stands for no parameter. Items of a list are named by their positions, counted from one. -/
def build (place : Place) (name : String) : Json → Option Param
  | .null => none
  | .boolean value => some (make place name (if value then "true" else "false") .scalar [])
  | .integer value => some (make place name (toString value) .scalar [])
  | .real negative magnitude =>
    some (make place name (Json.writeReal negative magnitude) .scalar [])
  | .string value => some (make place name value .scalar [])
  | .array items => some (make place name "" .list (buildItems (inner place name .list) 1 items))
  | .object members =>
    match Image.ofMembers? members with
    | some image => some (make place name "" (.image image) [])
    | none => some (make place name "" .object (buildMembers (inner place name .object) members))

def buildItems (place : Place) (position : Nat) : List Json → List Param
  | [] => []
  | item :: rest =>
    (build place (toString position) item).toList ++ buildItems place (position + 1) rest

def buildMembers (place : Place) : List (String × Json) → List Param
  | [] => []
  | (name, value) :: rest => (build place name value).toList ++ buildMembers place rest

end

mutual

/-- A parameter and all below it, parents before children. -/
def withAll : Param → List Param
  | ⟨key, value, kind, absoluteKey, compactKey, level, children⟩ =>
    ⟨key, value, kind, absoluteKey, compactKey, level, children⟩ :: withAllOf children

def withAllOf : List Param → List Param
  | [] => []
  | param :: rest => withAll param ++ withAllOf rest

end

mutual

/-- The number of levels from a parameter down, itself included. -/
def depth : Param → Nat
  | ⟨_, _, _, _, _, _, children⟩ => depthAll children + 1

def depthAll : List Param → Nat
  | [] => 0
  | param :: rest => max (depth param) (depthAll rest)

end

mutual

/-- Changes kind and value of a parameter and of all below it, parents before children, with a state
that is handed on. -/
def traverse {σ : Type} (change : σ → Param → σ × Kind × String) (state : σ) :
    Param → σ × Param
  | ⟨key, value, kind, absoluteKey, compactKey, level, children⟩ =>
    let (state, newKind, newValue) :=
      change state ⟨key, value, kind, absoluteKey, compactKey, level, children⟩
    let (state, children) := traverseAll change state children
    (state, ⟨key, newValue, newKind, absoluteKey, compactKey, level, children⟩)

def traverseAll {σ : Type} (change : σ → Param → σ × Kind × String) (state : σ) :
    List Param → σ × List Param
  | [] => (state, [])
  | param :: rest =>
    let (state, param) := traverse change state param
    let (state, rest) := traverseAll change state rest
    (state, param :: rest)

end

end Param

structure Params where
  top : List Param := []

inductive ParamsError
  /-- The data is no JSON text. -/
  | malformed
  | notAnObject (found : Json.Kind)
deriving DecidableEq, Repr

namespace ParamsError

def message : ParamsError → String
  | malformed => "invalid parameter data:"
  | notAnObject found => "parameters must be an object, found " ++ found.name

end ParamsError

namespace Params

def ofMembers (members : List (String × Json)) : Params :=
  ⟨Param.buildMembers {} members⟩

/-- The members of an object are the parameters at the top level. -/
def ofJson : Json → Except ParamsError Params
  | .object members => .ok (ofMembers members)
  | value => .error (.notAnObject value.kind)

def ofBytes (bytes : ByteArray) : Except ParamsError Params :=
  match Json.readBytes? bytes with
  | some value => ofJson value
  | none => .error .malformed

/-- No parameters at all if the bytes are not an object. -/
def ofBytesOrEmpty (bytes : ByteArray) : Params :=
  match ofBytes bytes with
  | .ok params => params
  | .error _ => {}

/-- All parameters, parents before children. -/
def all (params : Params) : List Param :=
  Param.withAllOf params.top

/-- Changes kinds and values of all parameters, parents before children. -/
def traverse {σ : Type} (params : Params) (change : σ → Param → σ × Param.Kind × String)
    (state : σ) : σ × Params :=
  let (state, top) := Param.traverseAll change state params.top
  (state, ⟨top⟩)

/-- The number of levels. -/
def depth (params : Params) : Nat :=
  Param.depthAll params.top

def hasImages (params : Params) : Bool :=
  params.all.any fun param => param.image?.isSome

end Params

end WordTemplate
