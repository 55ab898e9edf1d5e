/-!
# Lines

A line ends at a line feed, vertical tab, form feed, carriage return, an information separator
other than the unit separator, NEL, or a Unicode line or paragraph separator; a carriage return
and the line feed after it end one line.
-/

namespace TokenCatalog.Text

def isLineBreak (c : Char) : Bool :=
  let n := c.toNat
  (10 ≤ n && n ≤ 13) || (28 ≤ n && n ≤ 30) || n == 0x85 || n == 0x2028 || n == 0x2029

/-- The lines of a text, given the reversed beginning of the first one. A last line that holds
nothing is not a line. -/
def linesFrom : List Char → List Char → List (List Char)
  | start, [] => if start.isEmpty then [] else [start.reverse]
  | start, '\r' :: '\n' :: cs => start.reverse :: linesFrom [] cs
  | start, c :: cs =>
    if isLineBreak c then start.reverse :: linesFrom [] cs else linesFrom (c :: start) cs

def lines (cs : List Char) : List (List Char) :=
  linesFrom [] cs

/-- The text with every line end, LF, CR LF or CR, written as LF. -/
def universalNewlines : List Char → List Char
  | [] => []
  | '\r' :: '\n' :: cs => '\n' :: universalNewlines cs
  | '\r' :: cs => '\n' :: universalNewlines cs
  | c :: cs => c :: universalNewlines cs

end TokenCatalog.Text
