import WordTemplate.Json.Basic

/-!
Images among the parameters: an object with the one member `$image` that tells where the image comes
from and how large it is shown.
-/

namespace WordTemplate

structure Image where
  path : Option String := none
  url : Option String := none
  width : Nat := 0
  height : Nat := 0
deriving DecidableEq, Repr

namespace Image

def tag : String := "$image"

def maxExtent : Nat := 0xFFFFFFFF

/-- A source may be absent or null. -/
def readSource? : Option Json → Option (Option String)
  | none => some none
  | some .null => some none
  | some (.string source) => some (some source)
  | some _ => none

/-- An extent may be absent and is an integer of 32 bits otherwise. -/
def readExtent? : Option Json → Option Nat
  | none => some 0
  | some (.integer value) => if 0 ≤ value && value ≤ maxExtent then some value.toNat else none
  | some _ => none

def readFields? (path url width height : Option Json) : Option Image := do
  let path ← readSource? path
  let url ← readSource? url
  let width ← readExtent? width
  let height ← readExtent? height
  return ⟨path, url, width, height⟩

/-- The fields stand in an object by name, or in an array in order; an array may end early. -/
def ofFields? : Json → Option Image
  | .object members =>
    readFields? (members.lookup "path") (members.lookup "url") (members.lookup "width")
      (members.lookup "height")
  | .array items =>
    if 4 < items.length then none
    else readFields? items[0]? items[1]? items[2]? items[3]?
  | _ => none

/-- An empty source counts as absent. -/
def dropEmptySources (image : Image) : Image :=
  { image with
    path := image.path.filter fun path => !path.isEmpty
    url := image.url.filter fun url => !url.isEmpty }

def ofMembers? : List (String × Json) → Option Image
  | [(name, fields)] => if name = tag then (ofFields? fields).map dropEmptySources else none
  | _ => none

/-- The fields that are set, and both extents. -/
def fields (image : Image) : List (String × Json) :=
  (image.path.map fun path => ("path", Json.string path)).toList ++
    (image.url.map fun url => ("url", Json.string url)).toList ++
    [("width", .integer image.width), ("height", .integer image.height)]

def toJson (image : Image) : Json :=
  .object [(tag, Json.ofMembers image.fields)]

end Image

end WordTemplate
