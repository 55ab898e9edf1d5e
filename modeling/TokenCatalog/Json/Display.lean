import TokenCatalog.Json.Basic
import TokenCatalog.Text.Digit
import TokenCatalog.Text.Printable

/-!
# Showing values in messages

How a value appears in tables, details and error messages: a text as it is, or between quotes where
it stands inside another value; `None`, `True` and `False`; lists in brackets and tables in braces.
-/

namespace TokenCatalog

/-! ## Quoted text -/

/-- The quote around a text: single, unless the text holds a single quote and no double one. -/
def quoteFor (cs : List Char) : Char :=
  if cs.contains '\'' && !cs.contains '"' then '"' else '\''

def quotedChar (quote : Char) (c : Char) : List Char :=
  let n := c.toNat
  if c = quote || c = '\\' then ['\\', c]
  else if c = '\n' then ['\\', 'n']
  else if c = '\r' then ['\\', 'r']
  else if c = '\t' then ['\\', 't']
  else if Text.isPrintable c then [c]
  else if n < 0x100 then '\\' :: 'x' :: Text.hexFilled 2 n
  else if n < 0x10000 then '\\' :: 'u' :: Text.hexFilled 4 n
  else '\\' :: 'U' :: Text.hexFilled 8 n

/-- A text between quotes, with escapes for what cannot be shown. -/
def quoted (s : String) : List Char :=
  let quote := quoteFor s.toList
  quote :: s.toList.flatMap (quotedChar quote) ++ [quote]

/-! ## Values -/

def displayWords : Binary64.SpecialWords := ⟨"nan", "inf"⟩

mutual

/-- A value where it stands inside another one or in a message. -/
def Json.inspect : Json → List Char
  | .null => "None".toList
  | .bool b => (if b then "True" else "False").toList
  | .int n => textOfInt n
  | .real x => x.shortestText displayWords
  | .str s => quoted s
  | .arr items => '[' :: Json.inspectItems items ++ [']']
  | .obj members => '\x7b' :: Json.inspectMembers members ++ ['\x7d']

def Json.inspectItems : List Json → List Char
  | [] => []
  | [x] => Json.inspect x
  | x :: xs => Json.inspect x ++ ',' :: ' ' :: Json.inspectItems xs

def Json.inspectMembers : List (Key × Json) → List Char
  | [] => []
  | [(k, x)] => inspectKey k ++ ':' :: ' ' :: Json.inspect x
  | (k, x) :: xs =>
    inspectKey k ++ ':' :: ' ' :: Json.inspect x ++ ',' :: ' ' :: Json.inspectMembers xs

def inspectKey : Key → List Char
  | .text s => quoted s
  | .int n => textOfInt n
  | .real x => x.shortestText displayWords
  | .bool b => (if b then "True" else "False").toList
  | .null => "None".toList

end

/-- A value on its own: a text as it is. -/
def Json.display : Json → List Char
  | .str s => s.toList
  | value => value.inspect

end TokenCatalog
