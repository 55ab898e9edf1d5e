import TokenCatalog.Css.Write
import TokenCatalog.Value.Color
import TokenCatalog.Value.Flag
import TokenCatalog.Value.Kind

/-!
# Classifying values

The kind of a value is decided by its shape, in a fixed order: colour, gradient, shadow, font
family, length; the first that fits wins and anything else is of the kind `other`. Each kind but
the last has a normal form. A declared name is only a second hint, for digits without a hash, for
families and for font sizes.
-/

namespace TokenCatalog

structure Classified where
  kind : ValueKind
  value : String
  deriving DecidableEq, Repr

namespace Value

open TokenCatalog.Css (Node ColorFault significant splitCommas)

/-! ## Colours inside a value -/

/-- Whether a component value is a colour. A hash is one by its ASCII digits alone. -/
def isColorNode : Node → Except ColorFault Bool
  | .leaf _ (.hash name _) => .ok (hexDigits? name).isSome
  | .leaf p (.ident name) => do .ok (← (Node.leaf p (.ident name)).color?).isSome
  | .function p name arguments => do .ok (← (Node.function p name arguments).color?).isSome
  | _ => .ok false

/-- Whether some node is a colour; the nodes after the first colour are not looked at. -/
def anyColor : List Node → Except ColorFault Bool
  | [] => .ok false
  | node :: nodes => do if ← isColorNode node then .ok true else anyColor nodes

/-! ## Gradients -/

def gradientFunctions : List String :=
  ["linear-gradient", "radial-gradient", "conic-gradient", "repeating-linear-gradient",
    "repeating-radial-gradient", "repeating-conic-gradient"]

def countStops : List (List Node) → Except ColorFault Nat
  | [] => .ok 0
  | part :: parts => do
    let here ← anyColor (significant part)
    let rest ← countStops parts
    .ok (if here then rest + 1 else rest)

/-- Whether a node is a gradient: a gradient function with at least two colour stops. -/
def isGradientNode : Node → Except ColorFault Bool
  | .function _ name arguments =>
    if gradientFunctions.any fun f => Text.asciiLower name = f.toList then do
      .ok (2 ≤ (← countStops (splitCommas arguments)))
    else .ok false
  | _ => .ok false

def isGradient : List Node → Except ColorFault Bool
  | [] => .ok false
  | node :: nodes => do if ← isGradientNode node then .ok true else isGradient nodes

/-! ## Shadows -/

def shadowUnits : List String :=
  ["px", "rem", "em", "pt", "pc", "ex", "ch", "vh", "vw", "vmin", "vmax", "cm", "mm", "in"]

def isUnitOf (units : List String) (unit : List Char) : Bool :=
  units.any fun u => Text.asciiLower unit = u.toList

/-- Whether a node is a length of a shadow: a length or a bare zero. -/
def isShadowLength : Node → Bool
  | .leaf _ (.dimension _ unit) => isUnitOf shadowUnits unit
  | .leaf _ (.number n) => n.value.isZero
  | _ => false

def isInset : Node → Bool
  | .leaf _ (.ident name) => Text.asciiLower name = "inset".toList
  | _ => false

def areShadowLengths (nodes : List Node) : Bool :=
  2 ≤ nodes.length && nodes.length ≤ 4 && nodes.all isShadowLength

/-- Whether nodes are one layer of a shadow: lengths with a colour after or before them. -/
def isShadowLayer (nodes : List Node) : Except ColorFault Bool :=
  match (significant nodes).filter (!isInset ·) with
  | [] => .ok false
  | first :: rest => do
    if ← isColorNode ((first :: rest).getLast (by simp)) then
      .ok (areShadowLengths (first :: rest).dropLast)
    else if ← isColorNode first then .ok (areShadowLengths rest)
    else .ok false

def areShadowLayers : List (List Node) → Except ColorFault Bool
  | [] => .ok true
  | part :: parts => do if ← isShadowLayer part then areShadowLayers parts else .ok false

/-- Whether nodes are a shadow: one or more layers between commas. -/
def isShadow (nodes : List Node) : Except ColorFault Bool :=
  areShadowLayers (splitCommas nodes)

/-! ## Font families -/

def genericFamilies : List String :=
  ["serif", "sans-serif", "monospace", "cursive", "fantasy", "system-ui", "ui-serif",
    "ui-sans-serif", "ui-monospace", "ui-rounded", "emoji", "math", "fangsong"]

def identName? : Node → Option (List Char)
  | .leaf _ (.ident name) => some name
  | _ => none

/-- A family: a string as written, or identifiers with one space between them. -/
def family? (nodes : List Node) : Option (List Char) :=
  match significant nodes with
  | [] => none
  | [.leaf _ (.string value)] => some (Css.writeString value)
  | nodes => (nodes.mapM identName?).map (Text.joinWith [' '])

def isGeneric (nodes : List Node) : Bool :=
  match significant nodes with
  | [.leaf _ (.ident name)] => genericFamilies.any fun g => Text.asciiLower name = g.toList
  | _ => false

/-- Whether a name, in lower case, says that it holds a font family. -/
def isFamilyName (name : List Char) : Bool :=
  Text.occursIn "famil".toList name || Text.occursIn "typeface".toList name

/-- The families between commas, if the name says so or the last one is generic. -/
def families? (nodes : List Node) (name : List Char) : Option (List (List Char)) := do
  let parts := splitCommas nodes
  let families ← parts.mapM family?
  if isFamilyName name || parts.getLast?.any isGeneric then some families else none

/-! ## Lengths -/

def lengthUnits : List String := ["px", "rem", "em", "pt"]

def isLength : Node → Bool
  | .leaf _ (.dimension _ unit) => isUnitOf lengthUnits unit
  | .leaf _ (.percentage _) => true
  | .leaf _ (.number n) => n.value.isZero
  | _ => false

/-- Whether a name, in lower case, says that it holds a font size. -/
def isSizeName (name : List Char) : Bool :=
  Text.occursIn "size".toList name || Text.occursIn "font".toList name

def isBareNumber : List Node → Bool
  | [.leaf _ (.number _)] => true
  | _ => false

/-- The kind of one to four lengths: a single one other than a bare zero is a font size if the name
says so. -/
def lengths? (nodes : List Node) (name : List Char) : Option Classified :=
  let values := significant nodes
  if 1 ≤ values.length && values.length ≤ 4 && values.all isLength then
    let text := Text.joinWith [' '] (values.map fun node => Text.asciiLower node.write)
    let kind :=
      if values.length = 1 && !isBareNumber values && isSizeName name then ValueKind.fontSize
      else .spacing
    some ⟨kind, String.ofList text⟩
  else none

/-! ## All kinds -/

/-- The kind and normal form of a text without flags that is no colour; `text` is the text with its
flags. -/
def classifyNodes (text candidate name : List Char) (nodes : List Node) :
    Except ColorFault Classified := do
  if ← isGradient nodes then .ok ⟨.gradient, String.ofList (Text.collapse candidate)⟩
  else if ← isShadow nodes then .ok ⟨.shadow, String.ofList (Text.collapse candidate)⟩
  else
    match families? nodes name with
    | some families => .ok ⟨.fontFamily, String.ofList (Text.joinWith [',', ' '] families)⟩
    | none => .ok ((lengths? nodes name).getD ⟨.other, String.ofList text⟩)

/-- The kind and normal form of a value. Hints are ASCII words, so only the ASCII capitals of the
name matter. -/
def classify (raw : List Char) (declaredName : Option (List Char)) :
    Except ColorFault Classified := do
  let text := Text.strip raw
  let candidate := stripFlags text
  let name := Text.asciiLower (declaredName.getD [])
  if candidate.isEmpty then .ok ⟨.other, String.ofList text⟩
  else
    match ← normalColor? candidate name with
    | some color => .ok ⟨.color, String.ofList color⟩
    | none => classifyNodes text candidate name (Css.parse candidate)

end Value

/-- Whether a classified value is worth reporting where no token is declared: a colour, gradient or
shadow other than the colour of the surrounding text. -/
def Classified.isHardCoded (c : Classified) : Bool :=
  (c.kind = .color || c.kind = .gradient || c.kind = .shadow) && c.value != "currentcolor"

end TokenCatalog
