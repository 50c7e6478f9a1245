import WordTemplate.Filling.Passes
import WordTemplate.Package.Gallery

/-!
Templates: a package whose content parts are filled with parameters. A content part is an XML part
whose name contains one of the patterns of the template.
-/

namespace WordTemplate

open Markup (Document)

structure Template where
  package : Package
  patterns : List String

inductive TemplateError
  | missingMainDocument
deriving DecidableEq, Repr

namespace TemplateError

def message : TemplateError → String
  | missingMainDocument => "package has no main document part `" ++ Package.mainDocument ++ "`"

end TemplateError

namespace Template

def defaultPatterns : List String :=
  [Package.mainDocument, "word/header", "word/footer"]

def openPackage (package : Package) (patterns : List String) : Except TemplateError Template :=
  if package.contains Package.mainDocument then .ok ⟨package, patterns⟩
  else .error .missingMainDocument

/-- Whether a part is a content part by its name. -/
def isContent (patterns : List String) (name : String) : Bool :=
  ".xml".toList.isSuffixOf name.toList &&
    patterns.any fun pattern => Text.occursIn pattern.toList name.toList

def contentParts (template : Template) : List String :=
  template.package.names.filter (isContent template.patterns)

/-! Filling -/

/-- Fills one part, and tells whether it was filled. Parts without markers are left as they are. -/
def fillPart (sources : ImageSources) (params : Params) (gallery : Gallery) (name : String) :
    Gallery × Bool :=
  match gallery.package.document? name with
  | none => (gallery, false)
  | some document =>
    let text := document.allText document.root
    if Wordml.holdsMarkerStart text then
      let (gallery, params) :=
        if params.hasImages then gallery.resolveImages sources params name text
        else (gallery, params)
      let package := gallery.package.setDocument name (Filling.fill document params)
      ({ gallery with package }, true)
    else (gallery, false)

def fillParts (sources : ImageSources) (params : Params) (gallery : Gallery) :
    List String → Gallery × Nat
  | [] => (gallery, 0)
  | name :: rest =>
    let (gallery, filled) := fillPart sources params gallery name
    let (gallery, count) := fillParts sources params gallery rest
    (gallery, if filled then count + 1 else count)

/-- Fills all content parts, and counts those that were filled. An image is stored once for all
parts; each part refers to it by a relationship of its own. -/
def apply (template : Template) (sources : ImageSources) (params : Params) : Template × Nat :=
  let (gallery, count) := fillParts sources params ⟨template.package, []⟩ template.contentParts
  ({ template with package := gallery.package }, count)

/-! Reading -/

/-- The texts of the paragraphs below the root, without those that are empty. -/
def lines (document : Document) : List String :=
  let document := Wordml.repairRuns document
  let texts := (document.findAll document.root [Wordml.paragraph]).map fun paragraph =>
    String.join ((Wordml.ownTexts document paragraph).map document.text)
  texts.filter fun text => !text.isEmpty

def plaintext (template : Template) : String :=
  "\n".intercalate <| template.contentParts.flatMap fun name =>
    ((template.package.document? name).map lines).getD []

/-- The markers that are still present, as they are written. -/
def placeholders (template : Template) : List String :=
  (Placeholder.scan template.plaintext).map (·.source)

end Template

end WordTemplate
