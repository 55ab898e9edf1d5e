import TokenCatalog.Json.Basic
import TokenCatalog.Text.Digit
import TokenCatalog.Text.Blank

/-!
# Writing JSON

Two layouts: one line with a blank after every comma and colon, and one item a line, indented by
two blanks for each level. Either keeps characters beyond ASCII or escapes them, the ones beyond
the basic plane as a surrogate pair.
-/

namespace TokenCatalog

/-! ## Strings -/

/-- Which characters of a string are escaped beyond quotes, backslashes and controls. -/
inductive JsonAlphabet where
  | unicode
  /-- Everything but the printable ASCII characters is escaped. -/
  | ascii
  deriving DecidableEq, Repr

def unitEscape (n : Nat) : List Char :=
  '\\' :: 'u' :: Text.hexFilled 4 n

def charEscape (c : Char) : List Char :=
  let n := c.toNat
  if n < 0x10000 then unitEscape n
  else unitEscape (0xD800 + (n - 0x10000) / 0x400) ++ unitEscape (0xDC00 + (n - 0x10000) % 0x400)

def writeChar (alphabet : JsonAlphabet) (c : Char) : List Char :=
  if c = '"' then ['\\', '"']
  else if c = '\\' then ['\\', '\\']
  else if c = '\n' then ['\\', 'n']
  else if c = '\r' then ['\\', 'r']
  else if c = '\t' then ['\\', 't']
  else if c = '\x0c' then ['\\', 'f']
  else if c = '\x08' then ['\\', 'b']
  else if c.toNat < 32 then unitEscape c.toNat
  else if alphabet = .ascii && 126 < c.toNat then charEscape c
  else [c]

def writeString (alphabet : JsonAlphabet) (s : String) : List Char :=
  '"' :: s.toList.flatMap (writeChar alphabet) ++ ['"']

/-! ## Scalars -/

def jsonWords : Binary64.SpecialWords := ⟨"NaN", "Infinity"⟩

def writeReal (x : Binary64) : List Char :=
  x.shortestText jsonWords

def Key.name : Key → String
  | .text s => s
  | .int n => String.ofList (textOfInt n)
  | .real x => String.ofList (writeReal x)
  | .bool b => if b then "true" else "false"
  | .null => "null"

/-! ## One line -/

mutual

def Json.write (alphabet : JsonAlphabet) : Json → List Char
  | .null => "null".toList
  | .bool b => (if b then "true" else "false").toList
  | .int n => textOfInt n
  | .real x => writeReal x
  | .str s => writeString alphabet s
  | .arr items => '[' :: Json.writeItems alphabet items ++ [']']
  | .obj members => '\x7b' :: Json.writeMembers alphabet members ++ ['\x7d']

def Json.writeItems (alphabet : JsonAlphabet) : List Json → List Char
  | [] => []
  | [x] => Json.write alphabet x
  | x :: xs => Json.write alphabet x ++ ',' :: ' ' :: Json.writeItems alphabet xs

def Json.writeMembers (alphabet : JsonAlphabet) : List (Key × Json) → List Char
  | [] => []
  | [(k, x)] => writeString alphabet k.name ++ ':' :: ' ' :: Json.write alphabet x
  | (k, x) :: xs =>
    writeString alphabet k.name ++ ':' :: ' ' :: Json.write alphabet x ++
      ',' :: ' ' :: Json.writeMembers alphabet xs

end

/-! ## One item a line -/

def newLine (level : Nat) : List Char :=
  '\n' :: List.replicate (2 * level) ' '

mutual

/-- A value over several lines, its own first line at the given level. -/
def Json.writeIndented (alphabet : JsonAlphabet) (level : Nat) : Json → List Char
  | .null => "null".toList
  | .bool b => (if b then "true" else "false").toList
  | .int n => textOfInt n
  | .real x => writeReal x
  | .str s => writeString alphabet s
  | .arr [] => ['[', ']']
  | .arr (x :: xs) =>
    '[' :: Json.writeItemLines alphabet (level + 1) (x :: xs) ++ newLine level ++ [']']
  | .obj [] => ['\x7b', '\x7d']
  | .obj (m :: ms) =>
    '\x7b' :: Json.writeMemberLines alphabet (level + 1) (m :: ms) ++ newLine level ++ ['\x7d']

def Json.writeItemLines (alphabet : JsonAlphabet) (level : Nat) : List Json → List Char
  | [] => []
  | [x] => newLine level ++ Json.writeIndented alphabet level x
  | x :: xs =>
    newLine level ++ Json.writeIndented alphabet level x ++
      ',' :: Json.writeItemLines alphabet level xs

def Json.writeMemberLines (alphabet : JsonAlphabet) (level : Nat) :
    List (Key × Json) → List Char
  | [] => []
  | [(k, x)] =>
    newLine level ++ writeString alphabet k.name ++ ':' :: ' ' ::
      Json.writeIndented alphabet level x
  | (k, x) :: xs =>
    newLine level ++ writeString alphabet k.name ++ ':' :: ' ' ::
      Json.writeIndented alphabet level x ++ ',' :: Json.writeMemberLines alphabet level xs

end

end TokenCatalog
