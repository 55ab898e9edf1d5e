import TokenCatalog.Css.Color
import TokenCatalog.Text.Blank

/-!
# The normal form of a colour

An opaque colour is `#` and six lower-case hexadecimal digits. A hash colour that is partly
transparent takes eight; any other partly transparent colour keeps its notation.
-/

namespace TokenCatalog.Value

open TokenCatalog.Css (ColorFault Rgba Color)

/-! ## Hexadecimal texts -/

/-- The values of three, four, six or eight ASCII hexadecimal digits. A line feed may follow. -/
def hexDigits? (cs : List Char) : Option (List Nat) := do
  let digits ← (Css.dropFinalNewline cs).mapM Text.hexValue?
  if [3, 4, 6, 8].contains digits.length then some digits else none

def hashDigits? : List Char → Option (List Nat)
  | '#' :: cs => hexDigits? cs
  | _ => none

/-- The digits of a hash colour that is written without its hash. It has three, six or eight digits
and at least one letter, so that a plain number stays a number. -/
def bareDigits? (cs : List Char) : Option (List Nat) := do
  let digits ← hexDigits? cs
  if digits.length != 4 && digits.any (9 < ·) then some digits else none

/-- Whether a name, in lower case, says that it holds a colour. -/
def isColorName (name : List Char) : Bool :=
  Text.occursIn "color".toList name || Text.occursIn "colour".toList name

/-! ## Writing -/

/-- A whole number in at least two characters; a minus sign counts as one. -/
def hexPair (n : Int) : List Char :=
  if n < 0 then '-' :: Text.hexFilled 1 n.natAbs else Text.hexFilled 2 n.natAbs

def writeChannel (x : Binary64) : Except ColorFault (List Char) :=
  match x.mul (.ofInt 255) with
  | .nan => .error .notANumber
  | .infinite _ => .error .infinite
  | y => .ok (hexPair (y.round?.getD 0))

def writeHash (c : Rgba) : Except ColorFault (List Char) := do
  let red ← writeChannel c.red
  let green ← writeChannel c.green
  let blue ← writeChannel c.blue
  .ok ('#' :: red ++ green ++ blue)

def isOpaque (c : Rgba) : Bool :=
  Binary64.one.le c.alpha

def normalHash (c : Rgba) : Except ColorFault (List Char) := do
  let hash ← writeHash c
  if isOpaque c then .ok hash else .ok (hash ++ (← writeChannel c.alpha))

def isLetters (cs : List Char) : Bool :=
  let cs := Css.dropFinalNewline cs
  !cs.isEmpty && cs.all Char.isAlpha

def normalForm (cs : List Char) : Color → Except ColorFault (List Char)
  | .current => .ok "currentcolor".toList
  | .concrete c =>
    if isOpaque c then writeHash c
    else if isLetters cs then .ok (Text.asciiLower cs)
    else .ok (Text.collapse cs)

/-- The normal form of a text that is a colour, none of any other. Under a name that says so, digits
without a hash are a colour too. -/
def normalColor? (cs name : List Char) : Except ColorFault (Option (List Char)) :=
  let digits? := hashDigits? cs <|> if isColorName name then bareDigits? cs else none
  match digits?.bind Css.digitsColor? with
  | some c => (normalHash c).map some
  | none => do
    match ← Css.color? cs with
    | some color => (normalForm cs color).map some
    | none => .ok none

def rgba? (cs : List Char) : Except ColorFault (Option Rgba) :=
  let cs := Text.strip cs
  match (hashDigits? cs).bind Css.digitsColor? with
  | some c => .ok (some c)
  | none => do
    match ← Css.color? cs with
    | some (.concrete c) => .ok (some c)
    | _ => .ok none

end TokenCatalog.Value
