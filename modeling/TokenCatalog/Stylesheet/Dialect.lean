import TokenCatalog.Source.Type

/-!
# Stylesheet dialects

What CSS, SCSS and Less differ in, as far as declarations and comments are concerned.
-/

namespace TokenCatalog.Stylesheet

structure Dialect where
  sourceType : SourceType
  extensions : List String
  /-- What a variable's name begins with, the first that fits being taken off. -/
  sigils : List String
  /-- The character that declares a variable, if the dialect has variables of its own. -/
  variableSign : Option Char
  hasLineComments : Bool
  /-- The character before a brace that does not open a block. -/
  interpolation : Option Char
  collectsKeyframes : Bool
  deriving DecidableEq, Repr

def css : Dialect where
  sourceType := .css
  extensions := [".css"]
  sigils := ["--"]
  variableSign := none
  hasLineComments := false
  interpolation := none
  collectsKeyframes := true

def scss : Dialect where
  sourceType := .scss
  extensions := [".scss"]
  sigils := ["$", "--"]
  variableSign := some '$'
  hasLineComments := true
  interpolation := some '#'
  collectsKeyframes := true

def less : Dialect where
  sourceType := .less
  extensions := [".less"]
  sigils := ["@", "--"]
  variableSign := some '@'
  hasLineComments := true
  interpolation := some '@'
  collectsKeyframes := false

def dialects : List Dialect := [css, scss, less]

def dialect? (type : SourceType) : Option Dialect :=
  dialects.find? (·.sourceType = type)

end TokenCatalog.Stylesheet
