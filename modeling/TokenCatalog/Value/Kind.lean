/-!
# Kinds of values

What a token stands for, and the words that documents use for it.
-/

namespace TokenCatalog

inductive ValueKind where
  | color
  | gradient
  | fontFamily
  | fontSize
  | spacing
  | shadow
  | other
  /-- Icon markup; no value is classified as this. -/
  | icon
  /-- A raster image; no value is classified as this. -/
  | image
  deriving DecidableEq, Repr, Inhabited

def ValueKind.all : List ValueKind :=
  [color, gradient, fontFamily, fontSize, spacing, shadow, other, icon, image]

def ValueKind.word : ValueKind → String
  | color => "color"
  | gradient => "gradient"
  | fontFamily => "fontFamily"
  | fontSize => "fontSize"
  | spacing => "spacing"
  | shadow => "shadow"
  | other => "other"
  | icon => "icon"
  | image => "image"

def ValueKind.ofWord? (word : String) : Option ValueKind :=
  ValueKind.all.find? (·.word = word)

end TokenCatalog
