import TokenCatalog.Number.Decimal
import TokenCatalog.Text.Blank
import TokenCatalog.Text.Digit
import TokenCatalog.Text.Ranges

/-!
# Scanning markup

A scan takes something from the head of a text and says whether what it took is well formed. A scan
never fails: a lapse of form is noted, and the reading goes on from where it was noticed. Scans in a
row are well formed if each of them is.
-/

namespace TokenCatalog.Xml

/-- What has been taken from the head of a text, the text after it, and whether what was taken is
well formed. -/
structure Taken (α : Type) where
  value : α
  rest : List Char
  sound : Bool
  deriving Repr

def Taken.map {α β : Type} (change : α → β) (t : Taken α) : Taken β :=
  ⟨change t.value, t.rest, t.sound⟩

def Scan (α : Type) : Type := List Char → Taken α

instance : Monad Scan where
  pure a := fun cs => ⟨a, cs, true⟩
  bind scan next := fun cs =>
    let first := scan cs
    let second := next first.value first.rest
    { second with sound := first.sound && second.sound }

/-! ## Characters -/

def isBlank (c : Char) : Bool :=
  c == ' ' || c == '\t' || c == '\n' || c == '\r'

def wideNameStarts : Text.Ranges :=
  [(0xC0, 0xD6), (0xD8, 0xF6), (0xF8, 0x2FF), (0x370, 0x37D), (0x37F, 0x1FFF),
    (0x200C, 0x200D), (0x2070, 0x218F), (0x2C00, 0x2FEF), (0x3001, 0xD7FF), (0xF900, 0xFDCF),
    (0xFDF0, 0xFFFD), (0x10000, 0xEFFFF)]

def isNameStart (c : Char) : Bool :=
  c.isAlpha || c == '_' || c == ':' || wideNameStarts.holds c.toNat

def isNameChar (c : Char) : Bool :=
  isNameStart c || isDigit c || c == '-' || c == '.' || c == '\u00b7' ||
    Text.Ranges.holds [(0x300, 0x36F), (0x203F, 0x2040)] c.toNat

def isAllowed (n : Nat) : Bool :=
  n == 9 || n == 10 || n == 13 || (0x20 ≤ n && n.isValidChar && n != 0xFFFE && n != 0xFFFF)

/-! ## Scans -/

namespace Scan

/-- Takes nothing; well formed only under a condition. -/
def require (condition : Bool) : Scan Unit :=
  fun cs => ⟨(), cs, condition⟩

def lapse : Scan Unit := require false

/-- Takes what a scan takes, and says whether it is well formed. -/
def judged {α : Type} (scan : Scan α) : Scan (α × Bool) :=
  fun cs => let t := scan cs; t.map fun value => (value, t.sound)

/-- Takes nothing; the text ahead. -/
def ahead : Scan (List Char) :=
  fun cs => ⟨cs, cs, true⟩

def next? : Scan (Option Char) :=
  fun cs => ⟨cs.head?, cs.drop 1, true⟩

def span (isIn : Char → Bool) : Scan (List Char) :=
  fun cs => ⟨cs.takeWhile isIn, cs.dropWhile isIn, true⟩

/-- Takes a word if the text begins with it, and says whether it does. -/
def word (w : String) : Scan Bool :=
  fun cs =>
    match Text.after? w.toList cs with
    | some rest => ⟨true, rest, true⟩
    | none => ⟨false, cs, true⟩

/-- Takes the first of some words that the text begins with, and says whether there is one. -/
def oneOf : List String → Scan Bool
  | [] => return false
  | w :: ws => do
    if ← word w then return true else oneOf ws

def blanks : Scan Bool :=
  fun cs => ⟨cs.head?.any isBlank, cs.dropWhile isBlank, true⟩

def name : Scan (List Char)
  | c :: cs =>
    if isNameStart c then ⟨c :: cs.takeWhile isNameChar, cs.dropWhile isNameChar, true⟩
    else ⟨[], c :: cs, true⟩
  | [] => ⟨[], [], true⟩

def quote? : Scan (Option Char)
  | c :: cs => if c = '"' || c = '\'' then ⟨some c, cs, true⟩ else ⟨none, c :: cs, true⟩
  | [] => ⟨none, [], true⟩

end Scan

end TokenCatalog.Xml
