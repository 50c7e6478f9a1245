import WordTemplate.Markup.Document
import WordTemplate.Named

/-!
Packages: the parts of a word-processing file by name, in the order of their names.
-/

namespace WordTemplate

open Markup (Document)

structure Package where
  parts : Named ByteArray := []

namespace Package

def mainDocument : String := "word/document.xml"

def contentTypes : String := "[Content_Types].xml"

/-- Of parts with the same name the last one stays. -/
def ofParts (parts : List (String × ByteArray)) : Package :=
  ⟨Named.ofList parts⟩

def size (package : Package) : Nat :=
  package.parts.length

def isEmpty (package : Package) : Bool :=
  package.parts.isEmpty

def names (package : Package) : List String :=
  package.parts.names

def get? (package : Package) (name : String) : Option ByteArray :=
  package.parts.get? name

def contains (package : Package) (name : String) : Bool :=
  package.parts.contains name

def set (package : Package) (name : String) (content : ByteArray) : Package :=
  ⟨package.parts.insert name content⟩

def setDocument (package : Package) (name : String) (document : Document) : Package :=
  package.set name document.write.toUTF8

/-- The document in a part. A part that is no text or not well-formed holds none. -/
def document? (package : Package) (name : String) : Option Document := do
  let content ← package.get? name
  let text ← String.fromUTF8? content
  (Document.parse text).toOption

/-- The parts that another package does not have, or has with other content. -/
def newParts (package old : Package) : List (String × ByteArray) :=
  package.parts.filter fun (name, content) => old.get? name != some content

@[simp]
theorem get?_set (package : Package) (name other : String) (content : ByteArray) :
    (package.set name content).get? other =
      if other = name then some content else package.get? other :=
  Named.get?_insert package.parts name other content

end Package

end WordTemplate
