/-!
# Line comments

A comment from two slashes to the end of its line is turned into a block comment, so that the text
can be read by the rules of CSS. Two slashes begin a comment only at the start of the text or after
a blank, a semicolon, a brace or a comma, so that `http://` and `url(//` are left alone; strings and
block comments are passed over.

This is done by a machine that reads one character at a time and knows only the region that the
character stands in.
-/

namespace TokenCatalog.Stylesheet

inductive Region where
  /-- Outside strings and comments; two slashes here begin a comment or not. -/
  | code (opens : Bool)
  | slash (opens : Bool)
  | string (quote : Char)
  | escaped (quote : Char)
  | block
  | blockStar
  | line
  | lineStar
  deriving DecidableEq, Repr

def opensLineComment (c : Char) : Bool :=
  [' ', '\t', '\r', '\n', ';', '\x7b', '\x7d', ','].contains c

/-- The region after a character of code that begins no comment. -/
def Region.afterCode (c : Char) : Region :=
  if c = '"' || c = '\'' then .string c else .code (opensLineComment c)

/-- What is written for a character, and the region after it. A closing mark inside a line comment
is broken up. -/
def Region.step : Region → Char → List Char × Region
  | .code opens, c => ([c], if c = '/' then .slash opens else .afterCode c)
  | .slash opens, c =>
    if c = '*' then (['*'], .block)
    else if c = '/' then if opens then (['*'], .line) else (['/'], .slash false)
    else ([c], .afterCode c)
  | .string quote, c =>
    ([c],
      if c = '\\' then .escaped quote
      else if c = quote || c = '\n' then .code (opensLineComment c)
      else .string quote)
  | .escaped quote, c => ([c], .string quote)
  | .block, c => ([c], if c = '*' then .blockStar else .block)
  | .blockStar, c =>
    ([c], if c = '/' then .code false else if c = '*' then .blockStar else .block)
  | .line, c =>
    if c = '\n' then (['*', '/', '\n'], .code true)
    else ([c], if c = '*' then .lineStar else .line)
  | .lineStar, c =>
    if c = '\n' then (['*', '/', '\n'], .code true)
    else if c = '/' then ([' ', '/'], .line)
    else ([c], if c = '*' then .lineStar else .line)

/-- What is written at the end of the text: a line comment is closed. -/
def Region.finish : Region → List Char
  | .line => ['*', '/']
  | .lineStar => ['*', '/']
  | _ => []

/-- The rest of a text, from a character in a given region, with block comments only. -/
def blockCommentsFrom (region : Region) : List Char → List Char
  | [] => region.finish
  | c :: cs => (region.step c).1 ++ blockCommentsFrom (region.step c).2 cs

/-- The text with its line comments turned into block comments. -/
def withBlockComments (cs : List Char) : List Char :=
  blockCommentsFrom (.code true) cs

end TokenCatalog.Stylesheet
