import TokenCatalog.Catalog.Merge
import TokenCatalog.Source.File
import TokenCatalog.Xml.Write

/-!
# Icon tokens

Every `symbol` and `svg` element with a name is an icon, at any depth. Its token's value is markup
of its own: a symbol's content goes into an `svg` element with the symbol's view box and size, an
`svg` element is taken as it is, and either is given the namespaces that it needs.
-/

namespace TokenCatalog.Icon

open TokenCatalog.Xml (Node Name)

inductive Fault where
  | undecodable (fault : Utf8.Fault)
  | rejected (fault : Utf8.Fault)
  deriving DecidableEq, Repr

def svgNamespace : List Char := "http://www.w3.org/2000/svg".toList

def linkNamespace : List Char := "http://www.w3.org/1999/xlink".toList

def linkMark : List Char := "xlink:".toList

/-- The attributes that a symbol hands on to the element around its content. -/
def symbolAttributes : List String :=
  ["viewBox", "preserveAspectRatio", "width", "height"]

def attribute? (name : String) (attributes : List (List Char × List Char)) :
    Option (List Char) :=
  (attributes.lookup name.toList).bind Xml.nonEmpty?

/-- The name of an icon: one given for this purpose, or else the element's identifier. -/
def nameOf? (attributes : List (List Char × List Char)) : Option (List Char) :=
  attribute? "data-token-name" attributes <|> attribute? "id" attributes

def escapeQuoted (c : Char) : List Char :=
  if c = '"' then "&quot;".toList
  else if c = '\'' then "&#x27;".toList
  else Xml.escape c

def writeAttribute (name : List Char) (value : List Char) : List Char :=
  ' ' :: name ++ '=' :: '"' :: value ++ ['"']

def wrapSymbol (attributes : List (List Char × List Char)) (children : List Node) :
    List Char :=
  let inner := Xml.writeNodes children
  let handedOn := symbolAttributes.flatMap fun name =>
    match attribute? name attributes with
    | some value => writeAttribute name.toList (value.flatMap escapeQuoted)
    | none => []
  "<svg".toList ++ writeAttribute "xmlns".toList svgNamespace ++
    (if Text.occursIn linkMark inner then writeAttribute "xmlns:xlink".toList linkNamespace
      else []) ++
    handedOn ++ '>' :: inner ++ "</svg>".toList

/-- The attributes with one that is missing or empty set to a value. -/
def supply (name value : List Char) (attributes : List (List Char × List Char)) :
    List (List Char × List Char) :=
  if ((attributes.lookup name).bind Xml.nonEmpty?).isSome then attributes
  else insertKeyed (· == ·) name value attributes

def standAlone (name : Name) (attributes : List (List Char × List Char))
    (children : List Node) : List Char :=
  let attributes := supply "xmlns".toList svgNamespace attributes
  let attributes :=
    if Text.occursIn linkMark (Xml.writeNodes children) then
      supply "xmlns:xlink".toList linkNamespace attributes
    else attributes
  (Node.element name attributes children).write

def icon? : Node → Option (List Char × List Char)
  | .element name attributes children =>
    if name.base = "symbol".toList || name.base = "svg".toList then
      (nameOf? attributes).map fun icon =>
        (icon,
          if name = ⟨none, "symbol".toList⟩ then wrapSymbol attributes children
          else standAlone name attributes children)
    else none
  | _ => none

def tokenOf (filename : String) (icon : List Char × List Char) : Token where
  name := .str (String.ofList icon.1)
  value := .str (String.ofList icon.2)
  sourceValue := .str (String.ofList icon.2)
  kind := .icon
  sourceFile := .str filename

def icons (text : List Char) : Except Utf8.Fault (List (List Char × List Char)) :=
  (Xml.parse? text).map fun root => (root.toList.flatMap Node.elements).filterMap icon?

/-- What a vector file holds: the icons by name. -/
def parseFile (file : SourceFile) : Except Fault Extraction := do
  let text ← file.text.mapError .undecodable
  let found ← (icons text).mapError .rejected
  match latest (found.map (tokenOf file.filename)) with
  | [] => .ok (.empty .svg)
  | tokens => .ok { sourceType := .svg, tokenGroups := [⟨.svg, tokens⟩] }

end TokenCatalog.Icon
