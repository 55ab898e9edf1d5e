/-!
# Source types

The kinds of files that tokens come from, in the order in which a catalog lists them.
-/

namespace TokenCatalog

inductive SourceType where
  | css
  | scss
  | less
  | svg
  | image
  deriving DecidableEq, Repr, Inhabited

def SourceType.all : List SourceType :=
  [css, scss, less, svg, image]

def SourceType.rank : SourceType → Nat
  | css => 0
  | scss => 1
  | less => 2
  | svg => 3
  | image => 4

def SourceType.word : SourceType → String
  | css => "css"
  | scss => "scss"
  | less => "less"
  | svg => "svg"
  | image => "image"

def SourceType.ofWord? (word : String) : Option SourceType :=
  SourceType.all.find? (·.word = word)

end TokenCatalog
