import TokenCatalog.Text.Blank
import TokenCatalog.Text.Lines
import TokenCatalog.Text.Word

/-!
# Marker comments

A comment whose line begins with `@tokens` opens a token scope: what follows on the line, up to the
next `@`, is its category, and a name after `@presenter` anywhere in the comment is its presenter. A
comment that holds `@tokens-end` closes the scope.
-/

namespace TokenCatalog.Stylesheet

def openWord : List Char := "@tokens".toList

def closeWord : List Char := "@tokens-end".toList

def presenterWord : List Char := "@presenter".toList

structure Scope where
  category : Option String
  presenter : Option String
  deriving DecidableEq, Repr

inductive Marker where
  | opens (scope : Scope)
  | closes
  deriving DecidableEq, Repr

def isInlineBlank (c : Char) : Bool :=
  c == ' ' || c == '\t'

/-- A comment's line without the blanks around it and the stars that decorate it. -/
def plainLine (line : List Char) : List Char :=
  Text.strip ((Text.strip line).dropWhile (· == '*'))

/-- The lines of a comment that hold something besides decoration. -/
def plainLines (comment : List Char) : List (List Char) :=
  ((Text.lines comment).map plainLine).filter (!·.isEmpty)

def presenterHere? (cs : List Char) : Option (List Char) := do
  let rest ← Text.after? presenterWord cs
  let name := (rest.dropWhile isInlineBlank).takeWhile Text.isWordOrHyphen
  if rest.head?.any isInlineBlank && !name.isEmpty then some name else none

def presenter? : List Char → Option (List Char)
  | [] => none
  | c :: cs =>
    match presenterHere? (c :: cs) with
    | some name => some name
    | none => presenter? cs

/-- The label of a line that opens a scope; it may be empty. -/
def label? (line : List Char) : Option (List Char) := do
  let rest ← Text.after? openWord line
  if rest.head?.any Text.isWordOrHyphen then none
  else some (Text.strip (rest.takeWhile fun c => c != '@' && c != '\n'))

def nonEmpty? (cs : List Char) : Option String :=
  if cs.isEmpty then none else some (String.ofList cs)

/-- What a comment marks; most comments mark nothing. -/
def readMarker (comment : List Char) : Option Marker :=
  let lines := plainLines comment
  let text := Text.joinWith ['\n'] lines
  if Text.occursIn closeWord text then some .closes
  else
    (lines.findSome? label?).map fun label =>
      .opens ⟨nonEmpty? label, (presenter? text).map String.ofList⟩

end TokenCatalog.Stylesheet
