import WordTemplate.Package.Basic
import WordTemplate.Text.Numeral
import WordTemplate.Text.Pieces

/-!
The two registries of a package. The content types say by file extension what a part is; every part
has relationships in a part of its own, each with an id that the part refers to.
-/

namespace WordTemplate.Package

open Markup (Document NodeId)

/-! Content types -/

def lowerAscii (text : String) : List Char :=
  text.toList.map Char.toLower

def imageType (suffix : String) : String :=
  if suffix = "jpg" || suffix = "jpeg" then "image/jpeg"
  else if suffix = "svg" then "image/svg+xml"
  else if suffix = "tif" || suffix = "tiff" then "image/tiff"
  else "image/" ++ suffix

def isRegistered (types : Document) (suffix : String) : Bool :=
  (types.children types.root).any fun entry =>
    (types.attribute? entry "Extension").any fun known => lowerAscii known = lowerAscii suffix

/-- An entry for images with a file extension, unless there is one for the extension already.
Without readable content types nothing is registered. -/
def registerImages (package : Package) (suffix : String) : Package :=
  match package.document? contentTypes with
  | none => package
  | some types =>
    if isRegistered types suffix then package
    else
      let (types, entry) := types.createElement "Default"
      let types := types.setAttribute entry "Extension" suffix
      let types := types.setAttribute entry "ContentType" (imageType suffix)
      package.setDocument contentTypes (types.append types.root entry)

/-! Relationships -/

/-- The directory of a part and its name there; a part at the top has no directory. -/
def splitName (part : String) : Option String × String :=
  match (Text.pieces '/' part.toList).map String.ofList with
  | [] => (none, part)
  | [_] => (none, part)
  | pieces => (some ("/".intercalate pieces.dropLast), pieces.getLastD "")

def relationsPart (part : String) : String :=
  match splitName part with
  | (some directory, file) => directory ++ "/_rels/" ++ file ++ ".rels"
  | (none, file) => "_rels/" ++ file ++ ".rels"

/-- How a part refers to another part: by the path from its own directory, or from the top of the
package with a slash in front. -/
def relativeTarget (part target : String) : String :=
  match splitName part with
  | (none, _) => target
  | (some directory, _) =>
    match (directory ++ "/").toList.isPrefixOf? target.toList with
    | some rest => String.ofList rest
    | none => "/" ++ target

def imageRelation : String :=
  "http://schemas.openxmlformats.org/officeDocument/2006/relationships/image"

def relationsSpace : String :=
  "http://schemas.openxmlformats.org/package/2006/relationships"

def emptyRelations : Document :=
  let relations := Document.new "Relationships"
  relations.setAttribute relations.root "xmlns" relationsSpace

def maxNumber : Nat := 0xFFFFFFFFFFFFFFFF

/-- Ids of this program are numbered; a plus sign before the number counts for nothing. -/
def idNumber? (id : String) : Option Nat :=
  match id.toList with
  | 'r' :: 'I' :: 'd' :: rest =>
    let digits :=
      match rest with
      | '+' :: digits => digits
      | digits => digits
    (Text.number? 10 digits).filter fun number => number ≤ maxNumber
  | _ => none

def freshNumber (relations : Document) : Nat :=
  let used := (relations.children relations.root).filterMap fun entry =>
    (relations.attribute? entry "Id").bind idNumber?
  used.foldl max 0 + 1

/-- Adds a relationship of a part to an image, and gives its id. -/
def relateImage (package : Package) (part target : String) : Package × String :=
  let name := relationsPart part
  let relations := (package.document? name).getD emptyRelations
  let id := "rId" ++ toString (freshNumber relations)
  let (relations, entry) := relations.createElement "Relationship"
  let relations := relations.setAttribute entry "Id" id
  let relations := relations.setAttribute entry "Type" imageRelation
  let relations := relations.setAttribute entry "Target" target
  (package.setDocument name (relations.append relations.root entry), id)

end WordTemplate.Package
