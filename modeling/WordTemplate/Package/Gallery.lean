import WordTemplate.Files.Path
import WordTemplate.Package.Registry
import WordTemplate.Params.Lookup
import WordTemplate.Placeholder
import WordTemplate.Text.Alphanumeric

/-!
Bringing images into a package. The bytes of an image become a media part, once for every source;
every use of an image adds a relationship of the part that shows it.
-/

namespace WordTemplate

structure ImageSources where
  /-- The content of a file that can be read. -/
  file? : String → Option ByteArray
  /-- The content behind an address, or the status of the failure. -/
  download : String → Except Nat ByteArray

inductive ImageError
  | missingSource
  | unreadable (path : String)
  | download (status : Nat) (url : String)
deriving DecidableEq, Repr

namespace ImageError

def message : ImageError → String
  | missingSource => "image has neither path nor url"
  | unreadable path => "failed to read image " ++ path
  | download status url => "HTTP error " ++ toString status ++ " for " ++ url

end ImageError

/-- A package together with the media parts that the sources used so far are stored in. -/
structure Gallery where
  package : Package
  media : List (String × String) := []

namespace Gallery

def defaultSuffix : String := "png"

/-- The file extension of a source without its query and fragment. -/
def suffixOf (source : String) : String :=
  let path := String.ofList (source.toList.takeWhile fun c => c != '?' && c != '#')
  match Path.extension? path with
  | some suffix =>
    if !suffix.isEmpty && suffix.toList.all Text.isAlphanumeric then
      String.ofList (Package.lowerAscii suffix)
    else defaultSuffix
  | none => defaultSuffix

def mediaName (suffix : String) (number : Nat) : String :=
  "word/media/image" ++ toString number ++ "." ++ suffix

/-- The first numbered name that is not taken. -/
def freshName (package : Package) (suffix : String) : String :=
  let names := (List.range (package.size + 1)).map fun index => mediaName suffix (index + 1)
  (names.find? fun name => !package.contains name).getD ""

def store (gallery : Gallery) (source : String) (content : ByteArray) : Gallery × String :=
  let suffix := suffixOf source
  let part := freshName gallery.package suffix
  let package := (gallery.package.set part content).registerImages suffix
  (⟨package, (source, part) :: gallery.media⟩, part)

/-- The media part of an image, which is stored on first use. A path wins over an address. -/
def mediaPart (gallery : Gallery) (sources : ImageSources) (image : Image) :
    Except ImageError (Gallery × String) :=
  match image.path, image.url with
  | some path, _ =>
    match gallery.media.lookup path with
    | some part => .ok (gallery, part)
    | none =>
      match sources.file? path with
      | some content => .ok (gallery.store path content)
      | none => .error (.unreadable path)
  | none, some url =>
    match gallery.media.lookup url with
    | some part => .ok (gallery, part)
    | none =>
      match sources.download url with
      | .ok content => .ok (gallery.store url content)
      | .error status => .error (.download status url)
  | none, none => .error .missingSource

/-- A picture with its size in points. -/
def markup (id : String) (image : Image) : String :=
  "<w:pict><v:shape style=\"width:" ++ toString image.width ++ "pt;height:" ++
    toString image.height ++ "pt\"><v:imagedata r:id=\"" ++ id ++ "\" /></v:shape></w:pict>"

/-- Stores an image for a part, and gives the markup that shows it there. -/
def resolve (gallery : Gallery) (sources : ImageSources) (image : Image) (part : String) :
    Except ImageError (Gallery × String) := do
  let (gallery, media) ← gallery.mediaPart sources image
  let target := Package.relativeTarget part media
  let (package, id) := gallery.package.relateImage part target
  return ({ gallery with package }, markup id image)

/-- The absolute keys of all parameters that placeholders in a text refer to. -/
def referenced (params : Params) (text : String) : List String :=
  (Placeholder.scan text).flatMap fun placeholder =>
    (params.resolve placeholder.key).map (·.absoluteKey)

/-- The gallery, the kind and the value after an image parameter was resolved. An image that cannot
be had becomes an empty text. -/
def resolveParam (sources : ImageSources) (part : String) (keys : List String) (gallery : Gallery)
    (param : Param) : Gallery × Param.Kind × String :=
  match param.kind with
  | .image image =>
    if keys.any (Key.hasAncestor param.absoluteKey) then
      match gallery.resolve sources image part with
      | .ok (gallery, markup) => (gallery, .image image, markup)
      | .error _ => (gallery, .scalar, "")
    else (gallery, param.kind, param.value)
  | kind => (gallery, kind, param.value)

/-- Resolves the images that placeholders in the text of a part refer to. -/
def resolveImages (gallery : Gallery) (sources : ImageSources) (params : Params)
    (part text : String) : Gallery × Params :=
  let keys := referenced params text
  if keys.isEmpty then (gallery, params)
  else params.traverse (resolveParam sources part keys) gallery

end Gallery

end WordTemplate
