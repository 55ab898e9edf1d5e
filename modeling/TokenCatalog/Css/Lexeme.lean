import TokenCatalog.Css.Component
import TokenCatalog.Text.Digit

/-!
# Lexemes of a stylesheet

The text of a stylesheet as a row of lexemes, by the longest-match rules of CSS Syntax. Line ends
are made uniform first. Every scanner below says how many characters it takes, so that what is left
is a drop of the text and the lexemes' sources put together are the text.
-/

namespace TokenCatalog.Css

/-- A leaf, or a bracket that opens or closes a nested row. -/
inductive Lexeme where
  | leaf (leaf : Leaf)
  | openFunction (name : List Char)
  | openBlock (bracket : Bracket)
  | close (bracket : Bracket)
  deriving DecidableEq, Repr

/-! ## Uniform text -/

/-- The text with NUL replaced and every line end, CR LF, CR or FF, written as LF. -/
def uniform : List Char → List Char
  | [] => []
  | '\r' :: '\n' :: cs => '\n' :: uniform cs
  | c :: cs =>
    (if c = '\r' || c = '\x0c' then '\n' else if c = '\x00' then '\ufffd' else c) :: uniform cs

/-! ## Character classes -/

def isSpace (c : Char) : Bool :=
  c == ' ' || c == '\n' || c == '\t'

def isNameStart (c : Char) : Bool :=
  c.isAlpha || c == '_' || 0x7F < c.toNat

def isNameChar (c : Char) : Bool :=
  isNameStart c || isDigit c || c == '-'

/-- Whether a text begins with an escape: a backslash that does not end a line. -/
def startsEscape : List Char → Bool
  | '\\' :: '\n' :: _ => false
  | '\\' :: _ => true
  | _ => false

def startsIdent : List Char → Bool
  | '-' :: cs =>
    (match cs with
      | c :: _ => isNameStart c || c == '-'
      | [] => false) || startsEscape cs
  | c :: cs => isNameStart c || startsEscape (c :: cs)
  | [] => false

def isUrlFault (c : Char) : Bool :=
  let n := c.toNat
  c == '"' || c == '\'' || c == '(' || c == '\\' || n ≤ 8 || n == 0x0b ||
    (0x0e ≤ n && n ≤ 0x1f) || n == 0x7f

/-! ## Escapes and names -/

/-- The character of an escape, given the text after the backslash, and the escape's length. Up to
six hexadecimal digits and one blank name a code point; any other character stands for itself. -/
def takeEscape (cs : List Char) : Char × Nat :=
  let digits := (cs.take 6).takeWhile Text.isHex
  if digits.isEmpty then
    match cs with
    | [] => ('\ufffd', 0)
    | c :: _ => (c, 1)
  else
    let n := Text.ofDigits 16 (digits.filterMap Text.hexValue?)
    let blank := if (cs[digits.length]?).any isSpace then 1 else 0
    (if n = 0 then '\ufffd' else Text.charOfCode n, digits.length + blank)

/-- Whether what follows a backslash names half of a surrogate pair. -/
def namesHalf (cs : List Char) : Bool :=
  Text.isHalf (Text.ofDigits 16 (((cs.take 6).takeWhile Text.isHex).filterMap Text.hexValue?))

def raiseDigit : List Char → List Char
  | [] => []
  | c :: cs => if c = 'd' then 'e' :: cs else if c = 'D' then 'E' :: cs else c :: raiseDigit cs

/-- A text whose escapes name private characters where they named halves of surrogate pairs. All its
characters stay in place. -/
def raised : List Char → List Char
  | '\\' :: '\\' :: cs => '\\' :: '\\' :: raised cs
  | c :: cs => c :: if c = '\\' && namesHalf cs then raiseDigit (raised cs) else raised cs
  | [] => []

/-- The longest name that begins a text, its escapes resolved, and its length as written. -/
def takeName : List Char → List Char × Nat
  | [] => ([], 0)
  | c :: cs =>
    if isNameChar c then
      let (name, n) := takeName cs
      (c :: name, n + 1)
    else if startsEscape (c :: cs) then
      let (e, k) := takeEscape cs
      let (name, n) := takeName (cs.drop k)
      (e :: name, k + n + 1)
    else ([], 0)
termination_by cs => cs.length

/-! ## Numbers -/

/-- The longest number that begins a text: a sign, digits with or without a fraction, and an
exponent. -/
def takeNumeral (cs : List Char) : List Char :=
  let sign := match cs with
    | '+' :: _ => ['+']
    | '-' :: _ => ['-']
    | _ => []
  let rest := cs.drop sign.length
  let whole := rest.takeWhile isDigit
  let fraction := takeFraction (rest.drop whole.length)
  let digits := whole ++ fraction
  if digits.isEmpty then []
  else sign ++ digits ++ takeExponent (rest.drop digits.length)

/-! ## Strings and URLs -/

inductive Ending where
  | closed
  | endOfText
  | fault
  deriving DecidableEq, Repr

/-- A scanned string or URL: its value, its length as written, and how it ends. -/
structure Quoted where
  value : List Char
  size : Nat
  ending : Ending

/-- A string after its opening quote. An escaped line end vanishes; a bare one is a fault and is
left in place. -/
def takeString (quote : Char) : List Char → Quoted
  | [] => ⟨[], 0, .endOfText⟩
  | c :: cs =>
    if c = quote then ⟨[], 1, .closed⟩
    else if c = '\\' then
      match cs with
      | [] => ⟨[], 1, .endOfText⟩
      | d :: ds =>
        if d = '\n' then
          let tail := takeString quote ds
          ⟨tail.value, tail.size + 2, tail.ending⟩
        else
          let (e, k) := takeEscape (d :: ds)
          let tail := takeString quote ((d :: ds).drop k)
          ⟨e :: tail.value, k + tail.size + 1, tail.ending⟩
    else if c = '\n' then ⟨[], 0, .fault⟩
    else
      let tail := takeString quote cs
      ⟨c :: tail.value, tail.size + 1, tail.ending⟩
termination_by cs => cs.length

/-- The length of what is left of a faulty URL: up to its closing bracket, escaped ones apart. -/
def skipUrl : List Char → Nat
  | [] => 0
  | '\\' :: ')' :: cs => skipUrl cs + 2
  | c :: cs => if c = ')' then 1 else skipUrl cs + 1

def takeUrl : List Char → Quoted
  | [] => ⟨[], 0, .endOfText⟩
  | c :: cs =>
    if c = ')' then ⟨[], 1, .closed⟩
    else if isSpace c then
      let blanks := cs.takeWhile isSpace
      match cs.drop blanks.length with
      | [] => ⟨[], blanks.length + 1, .endOfText⟩
      | ')' :: _ => ⟨[], blanks.length + 2, .closed⟩
      | rest => ⟨[], blanks.length + 1 + skipUrl rest, .fault⟩
    else if startsEscape (c :: cs) then
      let (e, k) := takeEscape cs
      let tail := takeUrl (cs.drop k)
      ⟨e :: tail.value, k + tail.size + 1, tail.ending⟩
    else if isUrlFault c then ⟨[], skipUrl cs + 1, .fault⟩
    else
      let tail := takeUrl cs
      ⟨c :: tail.value, tail.size + 1, tail.ending⟩
termination_by cs => cs.length

/-- A comment's text, given what follows its opening, and whether it is closed. -/
def takeComment : List Char → List Char × Bool
  | [] => ([], false)
  | '*' :: '/' :: _ => ([], true)
  | c :: cs =>
    let (text, closed) := takeComment cs
    (c :: text, closed)

/-! ## Unicode ranges -/

/-- A range after `U+`: its two ends and its length. Question marks stand for any digit, and digits
and question marks together are at most six. -/
def takeRange (cs : List Char) : (Nat × Nat) × Nat :=
  let digits := (cs.take 6).takeWhile Text.isHex
  let marks := ((cs.take 6).drop digits.length).takeWhile (· == '?')
  let first := digits.filterMap Text.hexValue?
  if !marks.isEmpty then
    ((Text.ofDigits 16 (first ++ marks.map fun _ => 0),
      Text.ofDigits 16 (first ++ marks.map fun _ => 15)), digits.length + marks.length)
  else
    let last := match cs.drop digits.length with
      | '-' :: rest => (rest.take 6).takeWhile Text.isHex
      | _ => []
    if last.isEmpty then ((Text.ofDigits 16 first, Text.ofDigits 16 first), digits.length)
    else
      ((Text.ofDigits 16 first, Text.ofDigits 16 (last.filterMap Text.hexValue?)),
        digits.length + 1 + last.length)

/-! ## One lexeme -/

/-- The lexemes that begin a text, and how many characters follow the first one of them. A string
or URL that the text ends in is followed by its fault. -/
structure Scan where
  lexemes : List Lexeme
  more : Nat

def Scan.one (leaf : Leaf) (more : Nat) : Scan :=
  ⟨[.leaf leaf], more⟩

/-- A function or an unquoted URL, given its name and the text after its opening bracket; `n` is
the number of characters before that text, the first one apart. -/
def scanFunction (name : List Char) (n : Nat) (cs : List Char) : Scan :=
  let blanks := cs.takeWhile isSpace
  let rest := cs.drop blanks.length
  if Text.asciiLower name = "url".toList && !(rest.head?.any fun c => c == '"' || c == '\'') then
    let url := takeUrl rest
    let more := n + blanks.length + url.size
    match url.ending with
    | .closed => .one (.url url.value) more
    | .endOfText => ⟨[.leaf (.url url.value), .leaf (.fault .endInUrl)], more⟩
    | .fault => .one (.fault .badUrl) more
  else ⟨[.openFunction name], n⟩

def scanIdent (cs : List Char) : Scan :=
  let (name, n) := takeName cs
  match cs.drop n with
  | '(' :: rest => scanFunction name n rest
  | _ => .one (.ident name) (n - 1)

/-- A number, percentage or dimension, given its numeral and the text after it. -/
def scanNumeric (text cs : List Char) : Scan :=
  if startsIdent cs then
    let (unit, n) := takeName cs
    .one (.dimension ⟨text⟩ unit) (text.length + n - 1)
  else if cs.head? = some '%' then .one (.percentage ⟨text⟩) text.length
  else .one (.number ⟨text⟩) (text.length - 1)

def scanString (quote : Char) (cs : List Char) : Scan :=
  let string := takeString quote cs
  match string.ending with
  | .closed => .one (.string string.value) string.size
  | .endOfText => ⟨[.leaf (.string string.value), .leaf (.fault .endInString)], string.size⟩
  | .fault => .one (.fault .badString) string.size

def scanMark (c : Char) (cs : List Char) : Scan :=
  match c, cs with
  | '@', cs =>
    if startsIdent cs then
      let (name, n) := takeName cs
      .one (.atKeyword name) n
    else .one (.literal ['@']) 0
  | '#', cs =>
    if cs.head?.any isNameChar || startsEscape cs then
      let (name, n) := takeName cs
      .one (.hash name (startsIdent cs)) n
    else .one (.literal ['#']) 0
  | '(', _ => ⟨[.openBlock .round], 0⟩
  | '[', _ => ⟨[.openBlock .square], 0⟩
  | '\x7b', _ => ⟨[.openBlock .curly], 0⟩
  | ')', _ => ⟨[.close .round], 0⟩
  | ']', _ => ⟨[.close .square], 0⟩
  | '\x7d', _ => ⟨[.close .curly], 0⟩
  | '"', cs => scanString '"' cs
  | '\'', cs => scanString '\'' cs
  | '/', '*' :: cs =>
    let (text, closed) := takeComment cs
    .one (.comment text) (text.length + if closed then 3 else 1)
  | '<', '!' :: '-' :: '-' :: _ => .one (.literal "<!--".toList) 3
  | '|', '|' :: _ => .one (.literal ['|', '|']) 1
  | c, '=' :: _ =>
    if ['~', '|', '^', '$', '*'].contains c then .one (.literal [c, '=']) 1
    else .one (.literal [c]) 0
  | c, _ => .one (.literal [c]) 0

def startsRange : List Char → Bool
  | c :: '+' :: d :: _ => (c == 'u' || c == 'U') && (Text.isHex d || d == '?')
  | _ => false

/-- The lexemes that begin a text, given as its first character and the rest. -/
def scan (c : Char) (cs : List Char) : Scan :=
  if isSpace c then
    let blanks := cs.takeWhile isSpace
    .one (.whitespace (c :: blanks)) blanks.length
  else if startsRange (c :: cs) then
    let ((first, last), n) := takeRange (cs.drop 1)
    .one (.unicodeRange first last) (n + 1)
  else if (c :: cs).take 3 = "-->".toList then .one (.literal "-->".toList) 2
  else if startsIdent (c :: cs) then scanIdent (c :: cs)
  else
    let numeral := takeNumeral (c :: cs)
    if numeral.isEmpty then scanMark c cs
    else scanNumeric numeral ((c :: cs).drop numeral.length)

/-! ## All lexemes -/

/-- A lexeme and the position of its first character. -/
structure Located where
  position : Position
  lexeme : Lexeme
  deriving DecidableEq, Repr

def lexemesFrom (position : Position) : List Char → List Located
  | [] => []
  | c :: cs =>
    let s := scan c cs
    s.lexemes.map (⟨position, ·⟩) ++
      lexemesFrom (position.after (c :: cs.take s.more)) (cs.drop s.more)
termination_by cs => cs.length

def lexemes (cs : List Char) : List Located :=
  lexemesFrom .start (uniform cs)

end TokenCatalog.Css
