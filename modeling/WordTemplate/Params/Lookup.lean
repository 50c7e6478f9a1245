import WordTemplate.Params.Basic

/-!
Finding parameters by key. An absolute key leads to one parameter; a key without some of its
positions matches a parameter in every item of the lists it passes. A key whose path stops at a list
is pending there.
-/

namespace WordTemplate

/-- A parameter that a key matches, with the positions of the list items passed on the way. -/
structure Match where
  route : List String
  param : Param

/-- A list at which the path of a key stops, with what is left of the key. -/
structure PendingList where
  list : Param
  rest : String

namespace PendingList

/-- The key that addresses one item of the list. -/
def indexed (pending : PendingList) (item : String) : String :=
  let key := Key.join pending.list.absoluteKey item
  if pending.rest.isEmpty then key else Key.join key pending.rest

end PendingList

/-- A parameter with its running number among those that a key matches. -/
structure Numbered where
  number : Nat
  param : Param

namespace Param

mutual

/-- Follows an absolute key from a parameter whose key it starts with. -/
def getAt? (key : String) : Param → Option Param
  | ⟨name, value, kind, absoluteKey, compactKey, level, children⟩ =>
    if absoluteKey = key then some ⟨name, value, kind, absoluteKey, compactKey, level, children⟩
    else getAmong? key children

/-- Only the first parameter whose key the given key starts with is followed. -/
def getAmong? (key : String) : List Param → Option Param
  | [] => none
  | param :: rest =>
    if Key.hasAncestor key param.absoluteKey then getAt? key param else getAmong? key rest

end

mutual

/-- The parameters that the segments lead to from a parameter. -/
def matchesAt (route segments : List String) : Param → List Match
  | ⟨key, value, kind, absoluteKey, compactKey, level, children⟩ =>
    match segments with
    | [] => [⟨route, ⟨key, value, kind, absoluteKey, compactKey, level, children⟩⟩]
    | segment :: rest =>
      if kind = .list then
        if children.any fun child => child.key = segment then
          matchesNamed (route ++ [segment]) segment rest children
        -- A segment that names no item has to be matched inside every item.
        else matchesItems route (segment :: rest) children
      else matchesNamed route segment rest children

/-- Goes on in the first parameter of a name. -/
def matchesNamed (route : List String) (name : String) (segments : List String) :
    List Param → List Match
  | [] => []
  | param :: rest =>
    if param.key = name then matchesAt route segments param
    else matchesNamed route name segments rest

def matchesItems (route segments : List String) : List Param → List Match
  | [] => []
  | param :: rest =>
    matchesAt (route ++ [param.key]) segments param ++ matchesItems route segments rest

end

mutual

/-- Follows segments to the first list that none of its items leads on from. -/
def pendingAt? (matched : Bool) (segments : List String) : Param → Option PendingList
  | ⟨key, value, kind, absoluteKey, compactKey, level, children⟩ =>
    let param : Param := ⟨key, value, kind, absoluteKey, compactKey, level, children⟩
    -- The list is pending if it is empty or something matches inside its items.
    let stop : Option PendingList :=
      if children.isEmpty || matched then some ⟨param, Key.ofSegments segments⟩ else none
    match segments with
    | [] => if kind = .list then stop else none
    | segment :: rest =>
      if kind = .list && !children.any (fun child => child.key = segment) then stop
      else pendingAmong? matched segment rest children

def pendingAmong? (matched : Bool) (name : String) (segments : List String) :
    List Param → Option PendingList
  | [] => none
  | param :: rest =>
    if param.key = name then pendingAt? matched segments param
    else pendingAmong? matched name segments rest

end

end Param

namespace Params

def get? (params : Params) (absoluteKey : String) : Option Param :=
  Param.getAmong? absoluteKey params.top

def matching (params : Params) (key : String) : List Match :=
  match Key.segments key with
  | [] => []
  | segment :: rest => Param.matchesNamed [] segment rest params.top

/-- All parameters that a key matches, in the order of the tree. -/
def resolve (params : Params) (key : String) : List Param :=
  (params.matching key).map (·.param)

def pendingList? (params : Params) (key : String) : Option PendingList :=
  match Key.segments key with
  | [] => none
  | segment :: rest =>
    Param.pendingAmong? (!(params.resolve key).isEmpty) segment rest params.top

/-- Where numbering stands: what is added to positions, and the outer route and the position of the
match before. -/
structure Numbering where
  offset : Nat := 0
  previous : Option (List String × Nat) := none

/-- A route without its last position, and that position. A match outside of lists has position
one. -/
def splitRoute (route : List String) : List String × Nat :=
  match route.getLast? with
  | some last => (route.dropLast, (Text.number? 10 last.toList).getD 1)
  | none => ([], 1)

def numberFrom (numbering : Numbering) : List Match → List Numbered
  | [] => []
  | found :: rest =>
    let (outer, position) := splitRoute found.route
    -- Positions in a list go on counting from the last one used in the list before.
    let offset :=
      match numbering.previous with
      | some (previousOuter, previousPosition) =>
        if previousOuter = outer then numbering.offset else numbering.offset + previousPosition
      | none => numbering.offset
    ⟨position + offset, found.param⟩ :: numberFrom ⟨offset, some (outer, position)⟩ rest

/-- All parameters that a key matches, numbered in one running sequence. -/
def findAll (params : Params) (key : String) : List Numbered :=
  numberFrom {} (params.matching key)

end Params

end WordTemplate
