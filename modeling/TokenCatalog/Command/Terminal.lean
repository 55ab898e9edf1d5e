import TokenCatalog.Json.Display
import TokenCatalog.Text.Blank

/-!
# Terminal output

What the commands write for a reader: status lines with a mark before them, headings, tables and a
closing line. Marks and headings are colored where colors are wanted, and every escape sequence is
taken out where they are not. A quiet run writes errors and lines that are forced, and nothing else.
-/

namespace TokenCatalog.Command

/-! ## Colors -/

/-- Whether colors are wanted: an explicit choice counts first, then the two variables of the
environment, whatever their values, and then whether the output is a terminal. -/
def useColor (explicit : Option Bool) (environment : List (String × String))
    (isTerminal : Bool) : Bool :=
  match explicit with
  | some choice => choice
  | none =>
    if (environment.lookup "NO_COLOR").isSome then false
    else if (environment.lookup "FORCE_COLOR").isSome then true
    else isTerminal

def escapeChar : Char := '\x1b'

def styled (style : Nat) (cs : List Char) : List Char :=
  escapeChar :: '[' :: digitsOfNat style ++ 'm' :: cs ++ [escapeChar, '[', '0', 'm']

/-- Whether a character may stand between the bracket and the letter of an escape sequence. -/
def isSequenceChar (c : Char) : Bool := isDigit c || c == ';' || c == '?'

/-- What follows an escape sequence, given what follows its first character. -/
def afterSequence? : List Char → Option (List Char)
  | '[' :: cs =>
    match cs.dropWhile isSequenceChar with
    | c :: rest => if c.isAlpha then some rest else none
    | [] => none
  | _ => none

/-- The text without escape sequences, given how many of its characters are to be left out before
the next one is looked at. -/
def plainFrom : Nat → List Char → List Char
  | _, [] => []
  | skipped + 1, _ :: cs => plainFrom skipped cs
  | 0, c :: cs =>
    match if c = escapeChar then afterSequence? cs else none with
    | some rest => plainFrom (cs.length - rest.length) cs
    | none => c :: plainFrom 0 cs

def plain (cs : List Char) : List Char :=
  plainFrom 0 cs

/-! ## Lines -/

inductive Stream where
  | out
  | err
  deriving DecidableEq, Repr

abbrev Output := List (Stream × List Char)

def Output.on (stream : Stream) (output : Output) : List Char :=
  (List.filter (fun piece => piece.1 == stream) output).flatMap (·.2)

structure Terminal where
  color : Bool := true
  quiet : Bool := false
  verbose : Bool := false
  deriving DecidableEq, Repr

inductive Mark where
  | success
  | error
  | warning
  | info
  deriving DecidableEq, Repr

def Mark.glyph : Mark → Char
  | success => '✓'
  | error => '✗'
  | warning => '⚠'
  | info => 'ℹ'

def Mark.style : Mark → Nat
  | success => 92
  | error => 91
  | warning => 93
  | info => 94

def Mark.word : Mark → String
  | success => "[OK]"
  | error => "[FAIL]"
  | warning => "[WARN]"
  | info => "[INFO]"

namespace Terminal

def style (t : Terminal) (number : Nat) (cs : List Char) : List Char :=
  if t.color then styled number cs else cs

def mark (t : Terminal) (m : Mark) : List Char :=
  if t.color then styled m.style [m.glyph] else m.word.toList

/-- A text as it is written: without escape sequences unless colors are wanted. -/
def written (t : Terminal) (cs : List Char) : List Char :=
  (if t.color then cs else plain cs) ++ ['\n']

/-- A line for the standard output, left out in a quiet run unless it is forced. -/
def line (t : Terminal) (cs : List Char) (force : Bool := false) : Output :=
  if t.quiet && !force then [] else [(.out, t.written cs)]

def status (t : Terminal) (m : Mark) (cs : List Char) (force : Bool := false) : Output :=
  t.line (t.mark m ++ ' ' :: cs) force

def error (t : Terminal) (cs : List Char) : Output :=
  [(.err, t.written (t.mark .error ++ ' ' :: cs))]

def debug (t : Terminal) (cs : List Char) : Output :=
  if t.verbose then t.line ("DEBUG: ".toList ++ t.style 2 cs) else []

def header (t : Terminal) (title : List Char) : Output :=
  t.line (t.style 1 title) ++ t.line (List.replicate title.length '=')

def newline (t : Terminal) : Output :=
  t.line []

end Terminal

/-! ## Tables -/

def maxCellWidth : Nat := 60

/-- A cell's text with blanks collapsed, cut if it is too wide. -/
def fitCell (cs : List Char) : List Char :=
  let cs := Text.collapse cs
  if cs.length ≤ maxCellWidth then cs else cs.take (maxCellWidth - 3) ++ ['.', '.', '.']

def columnWidths (rows : List (List (List Char))) : List (List Char) → List Nat
  | [] => []
  | header :: headers =>
    (rows.map fun row => (row.head?.getD []).length).foldl max header.length ::
      columnWidths (rows.map (·.drop 1)) headers

def leftAligned (width : Nat) (cs : List Char) : List Char :=
  cs ++ List.replicate (width - cs.length) ' '

/-- Cells in columns, two blanks apart, without blanks at the end. -/
def tableLine (widths : List Nat) (cells : List (List Char)) : List Char :=
  Text.dropRightWhile Text.isBlank
    (Text.joinWith [' ', ' '] (widths.zipWith leftAligned cells))

inductive TableFault where
  | shortRow
  | longRow
  deriving DecidableEq, Repr

def TableFault.message : TableFault → String
  | shortRow => "list index out of range"
  | longRow => "zip() argument 2 is shorter than argument 1"

/-- The first fault of rows that should have as many cells as there are columns; short rows are
noticed first. -/
def tableFault? (columns : Nat) (rows : List (List (List Char))) : Option TableFault :=
  if rows.any (·.length < columns) then some .shortRow
  else if rows.any (columns < ·.length) then some .longRow
  else none

/-- A table: dim headers and a line for each row. -/
def Terminal.table (t : Terminal) (headers : List (List Char)) (rows : List (List (List Char))) :
    Output :=
  let rows := rows.map (·.map fitCell)
  let widths := columnWidths rows headers
  t.line (t.style 2 (tableLine widths headers)) ++
    rows.flatMap fun row => t.line (tableLine widths row)

/-! ## The closing line -/

/-- A duration, given in milliseconds: as whole milliseconds below a second, else as seconds with
one place. -/
def durationText (milliseconds : Binary64) : List Char :=
  let second := Binary64.ofInt 1000
  if milliseconds.lt second then milliseconds.fixedText 0 ++ ['m', 's']
  else (milliseconds.div second).fixedText 1 ++ ['s']

/-- The closing line: how many files there were, how many were loaded and skipped, and how long it
took. -/
def Terminal.summary (t : Terminal) (total loaded skipped : Int) (duration? : Option (List Char)) :
    Output :=
  let count (n : Int) (word : String) : List (List Char) :=
    if n = 0 then [] else [textOfInt n ++ word.toList]
  let parts :=
    [textOfInt total ++ " total".toList] ++ count loaded " loaded" ++ count skipped " skipped" ++
      duration?.toList
  t.status (if skipped = 0 then .success else .warning) (Text.joinWith " | ".toList parts) true

end TokenCatalog.Command
