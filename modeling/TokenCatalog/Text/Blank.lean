import TokenCatalog.Text.Ranges

/-!
# Blanks and words

The characters that separate words: the ASCII blanks, the four information separators, NEL, and
the Unicode space, line and paragraph separators. Trimming, splitting into words and collapsing
runs of blanks are all stated through `isBlank`.
-/

namespace TokenCatalog.Text

def blankRanges : Ranges :=
  [(9, 13), (28, 32), (133, 133), (160, 160), (5760, 5760), (8192, 8202), (8232, 8233),
   (8239, 8239), (8287, 8287), (12288, 12288)]

def isBlank (c : Char) : Bool :=
  blankRanges.holds c.toNat

/-! ## Trimming -/

/-- The text without its longest suffix of characters that satisfy `p`. -/
def dropRightWhile (p : Char → Bool) (cs : List Char) : List Char :=
  (cs.reverse.dropWhile p).reverse

/-- The text without leading and trailing characters that satisfy `p`. -/
def stripBy (p : Char → Bool) (cs : List Char) : List Char :=
  dropRightWhile p (cs.dropWhile p)

def strip (cs : List Char) : List Char :=
  stripBy isBlank cs

/-! ## Words -/

/-- The pieces between the characters that satisfy `p`; there is always one piece more than there
are separators, so pieces may be empty. -/
def pieces (p : Char → Bool) : List Char → List (List Char)
  | [] => [[]]
  | c :: cs =>
    if p c then [] :: pieces p cs
    else
      match pieces p cs with
      | [] => [[c]]
      | w :: ws => (c :: w) :: ws

def words (cs : List Char) : List (List Char) :=
  (pieces isBlank cs).filter (!·.isEmpty)

def occursIn (word : List Char) : List Char → Bool
  | [] => word.isEmpty
  | c :: cs => word.isPrefixOf (c :: cs) || occursIn word cs

def after? : List Char → List Char → Option (List Char)
  | [], cs => some cs
  | w :: ws, c :: cs => if w = c then after? ws cs else none
  | _ :: _, [] => none

def joinWith (separator : List Char) (parts : List (List Char)) : List Char :=
  (parts.intersperse separator).flatten

def collapse (cs : List Char) : List Char :=
  joinWith [' '] (words cs)

end TokenCatalog.Text
