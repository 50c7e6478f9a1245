import WordTemplate.Markup.Escape

/-!
Markup trees and how they are written. An element holds all its character data in one text, which
stands before its children.
-/

namespace WordTemplate.Markup

structure Attribute where
  key : String
  value : String
deriving DecidableEq, Repr

structure Element where
  tag : String
  attributes : List Attribute := []
  text : String := ""
deriving DecidableEq, Repr

namespace Element

def attribute? (element : Element) (key : String) : Option String :=
  (element.attributes.find? fun entry => entry.key = key).map (·.value)

/-- Changes the value of the first attribute with the key, or adds one at the end. -/
def setAttribute (element : Element) (key value : String) : Element :=
  let rec set : List Attribute → List Attribute
    | [] => [⟨key, value⟩]
    | entry :: rest => if entry.key = key then ⟨key, value⟩ :: rest else entry :: set rest
  { element with attributes := set element.attributes }

/-- Drops the first attribute with the key. -/
def removeAttribute (element : Element) (key : String) : Element :=
  { element with attributes := element.attributes.eraseP fun entry => entry.key = key }

/-- The part of the tag before its first colon. -/
def space? (element : Element) : Option String :=
  if element.tag.toList.contains ':' then
    some (String.ofList (element.tag.toList.takeWhile (· != ':')))
  else none

/-- The part of the tag behind its first colon, or the whole tag. -/
def localName (element : Element) : String :=
  match element.tag.toList.dropWhile (· != ':') with
  | [] => element.tag
  | _ :: rest => String.ofList rest

end Element

inductive Tree
  | node (element : Element) (children : List Tree)

namespace Tree

def element : Tree → Element
  | node element _ => element

def children : Tree → List Tree
  | node _ children => children

mutual

def size : Tree → Nat
  | node _ children => sizeAll children + 1

def sizeAll : List Tree → Nat
  | [] => 0
  | tree :: rest => tree.size + sizeAll rest

end

mutual

def depth : Tree → Nat
  | node _ children => depthAll children + 1

def depthAll : List Tree → Nat
  | [] => 0
  | tree :: rest => max tree.depth (depthAll rest)

end

def writeAttribute (entry : Attribute) : List Char :=
  ' ' :: entry.key.toList ++ '=' :: '"' :: escapeAttribute entry.value.toList ++ ['"']

/-- A start tag without its closing bracket. -/
def writeStart (element : Element) : List Char :=
  '<' :: element.tag.toList ++ element.attributes.flatMap writeAttribute

mutual

/-- An element without text and children is written as one tag. -/
def write : Tree → List Char
  | node element children =>
    if children.isEmpty && element.text.isEmpty then writeStart element ++ [' ', '/', '>']
    else
      writeStart element ++ '>' :: escapeText element.text.toList ++ writeAll children ++
        '<' :: '/' :: element.tag.toList ++ ['>']

def writeAll : List Tree → List Char
  | [] => []
  | tree :: rest => tree.write ++ writeAll rest

end

end Tree

end WordTemplate.Markup
