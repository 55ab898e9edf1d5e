import TokenCatalog.Css.Tree
import TokenCatalog.Css.ColorName

/-!
# Colours

A component value that is a colour, by the rules of CSS Color 3: keywords, hash colours, and the
functions `rgb`, `rgba`, `hsl` and `hsla`. Channels are fractions of one and are not limited to it.
-/

namespace TokenCatalog.Css

/-- Red, green, blue and opacity, each nominally from zero to one. -/
structure Rgba where
  red : Binary64
  green : Binary64
  blue : Binary64
  alpha : Binary64
  deriving DecidableEq, Repr

/-- A colour: that of the surrounding text, or a concrete one. -/
inductive Color where
  | current
  | concrete (rgba : Rgba)
  deriving DecidableEq, Repr

inductive ColorFault where
  /-- A whole number is beyond every number of the format. -/
  | tooLarge
  | infinite
  | notANumber
  deriving DecidableEq, Repr

def ColorFault.message : ColorFault → String
  | tooLarge => "integer division result too large for a float"
  | infinite => "cannot convert float infinity to integer"
  | notANumber => "cannot convert float NaN to integer"

def channel (n : Nat) : Binary64 :=
  Binary64.ofRatio false n 255

def opaqueColor (red green blue : Nat) : Rgba :=
  ⟨channel red, channel green, channel blue, .one⟩

/-! ## Keywords and hashes -/

def keywordColor? (name : List Char) : Option Color :=
  let name := Text.asciiLower name
  if name = "currentcolor".toList then some .current
  else if name = "transparent".toList then some (.concrete ⟨.zero, .zero, .zero, .zero⟩)
  else (namedChannels? name).map fun (r, g, b) => .concrete (opaqueColor r g b)

def dropFinalNewline (cs : List Char) : List Char :=
  if cs.getLast? = some '\n' then cs.dropLast else cs

/-- The colour of three, four, six or eight hexadecimal digits; a single digit counts twice. -/
def digitsColor? : List Nat → Option Rgba
  | [r, g, b] => some (opaqueColor (r * 17) (g * 17) (b * 17))
  | [r, g, b, a] => some ⟨channel (r * 17), channel (g * 17), channel (b * 17), channel (a * 17)⟩
  | [r, r', g, g', b, b'] => some (opaqueColor (r * 16 + r') (g * 16 + g') (b * 16 + b'))
  | [r, r', g, g', b, b', a, a'] =>
    some ⟨channel (r * 16 + r'), channel (g * 16 + g'), channel (b * 16 + b'),
      channel (a * 16 + a')⟩
  | _ => none

/-- The colour of a hash. Its digits may be of any script, and a line feed may follow them. -/
def hashColor? (name : List Char) : Option Color := do
  let digits ← (dropFinalNewline name).mapM Text.wideHexValue?
  (digitsColor? digits).map .concrete

/-! ## Functions -/

/-- The arguments between commas, each a single component value; none if they are not. -/
def commaSeparated : List Node → Option (List Node)
  | [] => none
  | [node] => some [node]
  | node :: comma :: nodes =>
    if comma.isLiteral [','] then (commaSeparated nodes).map (node :: ·) else none

def alphaOf? : Node → Option Binary64
  | .leaf _ (.number n) =>
    some (if n.value.le .zero then .zero else if Binary64.one.le n.value then .one else n.value)
  | _ => none

/-- A whole number of 255ths of either sign, unless it is beyond the format. -/
def integerChannel (n : Int) : Except ColorFault Binary64 :=
  match Binary64.ofRatio (n < 0) n.natAbs 255 with
  | .infinite _ => .error .tooLarge
  | x => .ok x

def percent (n : Numeral) : Binary64 :=
  n.value.div (.ofInt 100)

/-- The colour of three channels: whole numbers or percentages. -/
def rgbColor? (alpha : Binary64) : List Node → Except ColorFault (Option Color)
  | [.leaf _ (.number r), .leaf _ (.number g), .leaf _ (.number b)] =>
    if r.isInteger && g.isInteger && b.isInteger then do
      let red ← integerChannel r.int
      let green ← integerChannel g.int
      let blue ← integerChannel b.int
      .ok (some (.concrete ⟨red, green, blue, alpha⟩))
    else .ok none
  | [.leaf _ (.percentage r), .leaf _ (.percentage g), .leaf _ (.percentage b)] =>
    .ok (some (.concrete ⟨percent r, percent g, percent b, alpha⟩))
  | _ => .ok none

/-- The channel at a hue, between the two extremes of a colour. -/
def hueChannel (low high hue : Binary64) : Binary64 :=
  let hue := hue.fraction
  let six := Binary64.ofInt 6
  if hue.lt (.ofRatio false 1 6) then low.add (((high.sub low).mul hue).mul six)
  else if hue.lt (.ofRatio false 1 2) then high
  else if hue.lt (.ofRatio false 2 3) then
    low.add (((high.sub low).mul ((Binary64.ofRatio false 2 3).sub hue)).mul six)
  else low

/-- The colour of a hue, a saturation and a lightness, the hue a fraction of the circle. -/
def ofHue (hue saturation lightness alpha : Binary64) : Rgba :=
  if saturation.isZero then ⟨lightness, lightness, lightness, alpha⟩
  else
    let high :=
      if lightness.le (.ofRatio false 1 2) then lightness.mul (Binary64.one.add saturation)
      else (lightness.add saturation).sub (lightness.mul saturation)
    let low := ((Binary64.ofInt 2).mul lightness).sub high
    let third := Binary64.ofRatio false 1 3
    ⟨hueChannel low high (hue.add third), hueChannel low high hue,
      hueChannel low high (hue.sub third), alpha⟩

def hslColor? (alpha : Binary64) : List Node → Option Color
  | [.leaf _ (.number h), .leaf _ (.percentage s), .leaf _ (.percentage l)] =>
    some (.concrete (ofHue (h.value.div (.ofInt 360)) (percent s) (percent l) alpha))
  | _ => none

def functionColor? (name : List Char) (arguments : List Node) :
    Except ColorFault (Option Color) :=
  match commaSeparated (significant arguments) with
  | none => .ok none
  | some args =>
    let name := Text.asciiLower name
    let alpha? := match args.drop 3 with
      | [node] => alphaOf? node
      | _ => none
    if name = "rgb".toList then rgbColor? .one args
    else if name = "rgba".toList then
      match alpha? with
      | some alpha => rgbColor? alpha (args.take 3)
      | none => .ok none
    else if name = "hsl".toList then .ok (hslColor? .one args)
    else if name = "hsla".toList then
      .ok (alpha?.bind fun alpha => hslColor? alpha (args.take 3))
    else .ok none

/-! ## Nodes and texts -/

def Node.color? : Node → Except ColorFault (Option Color)
  | .leaf _ (.ident name) => .ok (keywordColor? name)
  | .leaf _ (.hash name _) => .ok (hashColor? name)
  | .function _ name arguments => functionColor? name arguments
  | _ => .ok none

def color? (cs : List Char) : Except ColorFault (Option Color) :=
  match parseOne? cs with
  | some node => node.color?
  | none => .ok none

end TokenCatalog.Css
