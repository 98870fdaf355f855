import BigBox.Lib.CInt
import BigBox.Lib.Search
import Mathlib.Data.List.DropRight

namespace BigBox.Xml
set_option autoImplicit true

abbrev Str := List UInt8

def SPACE : UInt8 := 32
def BANG : UInt8 := 33
def QUOTE2 : UInt8 := 34
def QUOTE1 : UInt8 := 39
def SLASH : UInt8 := 47
def COLON : UInt8 := 58
def LT : UInt8 := 60
def EQUALS : UInt8 := 61
def GT : UInt8 := 62
def QUESTION : UInt8 := 63

/-- The text ` xmlns`. -/
def XMLNS : Str := [32, 120, 109, 108, 110, 115]

/-- What an element node holds apart from its place in the tree. -/
structure Tag where
  pfx : Option Str
  name : Str
  uri : Option Str
  attr : Option Str
  deriving DecidableEq, Repr

/-- `struct xml_node`: a list of nodes, each with its `child` and its `next`. -/
inductive Nodes where
  | nil
  | text (text : Str) (next : Nodes)
  | element (tag : Tag) (child next : Nodes)
  deriving DecidableEq, Repr

/-- An element without what is next to it. -/
structure Element where
  tag : Tag
  child : Nodes
  deriving DecidableEq, Repr

/-- A tree by its root node. -/
inductive Tree where
  | text (s : Str)
  | element (e : Element)

def Nodes.append : Nodes → Nodes → Nodes
  | .nil, g => g
  | .text s next, g => .text s (next.append g)
  | .element tag child next, g => .element tag child (next.append g)

/-- `xml_add_child`. -/
def Element.addChild (root : Element) (child : Nodes) : Element :=
  { root with child := root.child.append child }

/-- `str_strip`. There is no string where all is blank. -/
def strStrip (str : Str) : Option Str :=
  let strip := (str.dropWhile (· = SPACE)).rdropWhile (· = SPACE)
  if strip = [] then none else some strip

/-- The value of the namespace declaration that starts at `ns_front`. A declaration without `=` or
without both quotes has none: a null pointer is read. -/
def nsUri (nsFront : Str) : Option Str := do
  let equals ← strchr EQUALS nsFront
  let nsSep := if equals.tail.head? = some QUOTE1 then QUOTE1 else QUOTE2
  let front ← strchr nsSep nsFront
  let uriFront := front.tail
  let uriRear ← strchr nsSep uriFront
  return between uriFront uriRear

/-- The name up to the first blank, and the attributes behind it. A name that is a null pointer is
read by the callers. -/
def parseName (pfx : Option Str) (rest : Str) (nsFront : Option Str) : Option Tag :=
  match strchr SPACE rest, nsFront with
  | some tagSep, none => (strStrip (between rest tagSep)).map fun name =>
      ⟨pfx, name, none, strStrip tagSep⟩
  | some tagSep, some nsFront => (strStrip (between rest tagSep)).bind fun name =>
      (nsUri nsFront).map fun uri => ⟨pfx, name, some uri, strStrip tagSep⟩
  | none, none => (strStrip rest).map fun name => ⟨pfx, name, none, none⟩
  | none, some _ => none

/-- A colon stands in front of the first blank. -/
def havePrefix (prefixChar tagSep : Option Str) : Bool :=
  match prefixChar, tagSep with
  | some prefixChar, some tagSep => tagSep.length < prefixChar.length
  | some _, none => true
  | none, _ => false

/-- `_parse_tag`. -/
def parseTag (tag : Str) : Option Tag :=
  let prefixChar := strchr COLON tag
  if havePrefix prefixChar (strchr SPACE tag) then
    prefixChar.bind fun prefixChar => (strStrip (between tag prefixChar)).bind fun pfx =>
      parseName (some pfx) prefixChar.tail (strstr (XMLNS ++ COLON :: pfx) tag)
  else parseName none tag (strstr XMLNS tag)

def Tag.qname (tag : Tag) : Str :=
  match tag.pfx with
  | some pfx => pfx ++ COLON :: tag.name
  | none => tag.name

/-- The closing tags of a name, without and with a blank behind it. -/
def endTag1 (qname : Str) : Str := LT :: SLASH :: (qname ++ [GT])

def endTag2 (qname : Str) : Str := LT :: SLASH :: (qname ++ [SPACE])

/-- A piece of text becomes a child of an element that has none. -/
def addText (root : Option Element) (curPos : Str) : Option Element :=
  root.map fun root => if root.child = .nil then root.addChild (.text curPos .nil) else root

/-- What lies behind the next `<`, and what starts with the next `>`. -/
def nextTag (curPos : Str) : Option (Str × Str) :=
  (strchr LT curPos).bind fun front => (strchr GT front.tail).map fun rear => (front.tail, rear)

/-- The loop of `_xml_parse_doc`, with a bound on its rounds; no result is a null pointer read. -/
def parseDoc : Nat → Str → Option Element → Option (Option Element)
  | 0, _, _ => none
  | n + 1, curPos, root =>
    if curPos = [] then some root
    else match nextTag curPos with
      | none => some (addText root curPos)
      | some (tagFront, tagRear) =>
        let tag := between tagFront tagRear
        let docFront := tagRear.tail
        if tag.getLast? = some SLASH then
          (parseTag tag.dropLast).bind fun tag =>
            match root with
            | some root => parseDoc n docFront (some (root.addChild (.element tag .nil .nil)))
            | none => some (some ⟨tag, .nil⟩)
        else
          (parseTag tag).bind fun tag =>
            match (strstr (endTag1 tag.qname) docFront).or
              (strstr (endTag2 tag.qname) docFront) with
            | none => parseDoc n docFront root
            | some docRear =>
              (parseDoc n (between docFront docRear) (some ⟨tag, .nil⟩)).bind fun node =>
                match root, node with
                | some root, some node => (strchr GT docRear).bind fun rear =>
                    parseDoc n rear.tail (some (root.addChild (.element node.tag node.child .nil)))
                | _, node => some node

/-- The loop of `xml_parse` over one kind of markup in front of the document: where it leaves its
pointer, which it does not set in an empty document. -/
def prologEnd (markup : Str) : Nat → Option Str → Str → Option Str
  | 0, _, _ => none
  | n + 1, found, pos =>
    if pos = [] then found
    else match strstr markup pos with
      | some front => (strchr GT front).bind fun rear => prologEnd markup n (some front) rear.tail
      | none => some pos

def xmlParse (docBuf : Str) : Option (Option Element) := do
  let procInst ← prologEnd [LT, QUESTION] (docBuf.length + 1) none docBuf
  let comment ← prologEnd [LT, BANG] (docBuf.length + 1) none docBuf
  let prologEnd := if procInst.length < comment.length then procInst else comment
  parseDoc (prologEnd.length + 1) prologEnd none

def startTag (tag : Tag) : Str :=
  match tag.attr with
  | some attr => LT :: (tag.qname ++ SPACE :: attr ++ [GT])
  | none => LT :: (tag.qname ++ [GT])

/-- A new line with the indentation of a depth, at any level but 0. -/
def newLine (level depth space : Nat) : Str :=
  if level = 0 then [] else 10 :: List.replicate (depth * space) SPACE

/-- `is_element_child` behind the loop over the children. -/
def Nodes.lastIsElement : Nodes → Bool
  | .nil => false
  | .text _ next => next.lastIsElement
  | .element _ _ .nil => true
  | .element _ _ next => next.lastIsElement

/-- `_xml_dump_tree` over the children of an element at a level. -/
def dumpNodes (space : Nat) : Nodes → Nat → Str
  | .nil, _ => []
  | .text s next, level => s ++ dumpNodes space next level
  | .element tag child next, level =>
    let nextLevel := if level = 0 then 0 else level + 1
    newLine level level space ++ startTag tag ++ dumpNodes space child nextLevel ++
      (if child.lastIsElement then newLine nextLevel (nextLevel - 1) space else []) ++
      endTag1 tag.qname ++ dumpNodes space next level

end BigBox.Xml
