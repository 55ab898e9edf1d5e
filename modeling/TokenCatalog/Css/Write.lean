import TokenCatalog.Css.Component
import TokenCatalog.Text.Digit

/-!
# Writing component values

The text of a tree. Names and strings are escaped anew from their values, strings take double
quotes, numbers keep their text, and a comment keeps apart neighbours that would read as one token.
-/

namespace TokenCatalog.Css

/-! ## Names and strings -/

/-- A character that ends a line in source text, as an escape; any other behind a backslash. -/
def escapeChar (c : Char) : List Char :=
  if c = '\n' then "\\A ".toList
  else if c = '\r' then "\\D ".toList
  else if c = '\x0c' then "\\C ".toList
  else ['\\', c]

/-- Whether a character stands for itself at the beginning of an identifier. -/
def isPlainStart (c : Char) : Bool :=
  c.isAlpha || c == '_' || 0x7F < c.toNat

def isPlain (c : Char) : Bool :=
  isPlainStart c || isDigit c || c == '-'

def writeName (name : List Char) : List Char :=
  name.flatMap fun c => if isPlain c then [c] else escapeChar c

def hexEscape (c : Char) : List Char :=
  '\\' :: (Nat.toDigits 16 c.toNat).map Char.toUpper ++ [' ']

/-- The first character of an identifier, after a hyphen if it has one. -/
def writeStart (c : Char) : List Char :=
  if isPlainStart c then [c] else if isDigit c then hexEscape c else escapeChar c

def writeIdent : List Char → List Char
  | [] => []
  | ['-'] => ['\\', '-']
  | '-' :: '-' :: cs => '-' :: '-' :: writeName cs
  | '-' :: c :: cs => '-' :: writeStart c ++ writeName cs
  | c :: cs => writeStart c ++ writeName cs

def writeString (value : List Char) : List Char :=
  '"' :: value.flatMap (fun c =>
    if c = '"' || c = '\\' || c = '\n' || c = '\r' || c = '\x0c' then escapeChar c else [c])
    ++ ['"']

def writeUrlChar (c : Char) : List Char :=
  if c = '\t' then "\\9 ".toList
  else if c = '\n' || c = '\r' || c = '\x0c' then escapeChar c
  else if ['\'', '"', '\\', ' ', '(', ')'].contains c then ['\\', c]
  else [c]

/-- A unit. One that would read as an exponent has its first letter escaped. -/
def writeUnit (unit : List Char) : List Char :=
  match unit with
  | [c] => if c = 'e' || c = 'E' then "\\65 ".toList else writeIdent unit
  | c :: '-' :: cs =>
    if c = 'e' || c = 'E' then "\\65 ".toList ++ writeName ('-' :: cs) else writeIdent unit
  | _ => writeIdent unit

def writeCode (n : Nat) : List Char :=
  (Nat.toDigits 16 n).map Char.toUpper

def Leaf.write : Leaf → List Char
  | whitespace text => text
  | comment text => '/' :: '*' :: text ++ ['*', '/']
  | ident name => writeIdent name
  | atKeyword name => '@' :: writeIdent name
  | hash name isIdentifier => '#' :: if isIdentifier then writeIdent name else writeName name
  | string value => writeString value
  | url value => "url(".toList ++ value.flatMap writeUrlChar ++ [')']
  | unicodeRange first last =>
    'U' :: '+' :: writeCode first ++ if first = last then [] else '-' :: writeCode last
  | number numeral => numeral.text
  | percentage numeral => numeral.text ++ ['%']
  | dimension numeral unit => numeral.text ++ writeUnit unit
  | literal text => text
  | fault _ => []

/-! ## Neighbours -/

inductive Shape where
  | ident
  | atKeyword
  | hash
  | number
  | percentage
  | dimension
  | unicodeRange
  | url
  | function
  | roundBlock
  | literal (text : List Char)
  | other
  deriving DecidableEq, Repr

def Node.shape : Node → Shape
  | .leaf _ (.ident _) => .ident
  | .leaf _ (.atKeyword _) => .atKeyword
  | .leaf _ (.hash _ _) => .hash
  | .leaf _ (.number _) => .number
  | .leaf _ (.percentage _) => .percentage
  | .leaf _ (.dimension _ _) => .dimension
  | .leaf _ (.unicodeRange _ _) => .unicodeRange
  | .leaf _ (.url _) => .url
  | .leaf _ (.literal text) => .literal text
  | .leaf _ _ => .other
  | .function _ _ _ => .function
  | .block _ .round _ => .roundBlock
  | .block _ _ _ => .other

def Shape.beginsName : Shape → Bool
  | ident => true
  | function => true
  | url => true
  | _ => false

def Shape.beginsNumber : Shape → Bool
  | number => true
  | percentage => true
  | dimension => true
  | _ => false

/-- Whether two neighbours would read as one token or as others. -/
def Shape.joins (a b : Shape) : Bool :=
  match a with
  | ident =>
    b.beginsName || b.beginsNumber || b == unicodeRange || b == literal ['-'] ||
      b == literal "-->".toList || b == roundBlock
  | atKeyword | hash | dimension =>
    b.beginsName || b.beginsNumber || b == unicodeRange || b == literal ['-'] ||
      b == literal "-->".toList
  | number => b.beginsName || b.beginsNumber || b == unicodeRange
  | unicodeRange => b.beginsNumber || b == ident || b == function || b == literal ['?']
  | literal ['#'] | literal ['-'] => b.beginsName || b.beginsNumber || b == unicodeRange
  | literal ['@'] => b.beginsName || b == unicodeRange || b == literal ['-']
  | literal ['.'] | literal ['+'] => b.beginsNumber
  | literal ['$'] | literal ['*'] | literal ['^'] | literal ['~'] => b == literal ['=']
  | literal ['|'] => b == literal ['='] || b == literal ['|']
  | literal ['/'] => b == literal ['*']
  | _ => false

def Node.beginsLine : Node → Bool
  | .leaf _ (.whitespace ('\n' :: _)) => true
  | _ => false

/-- What is written between a node and the next one: a comment where they would join, and a line
end after a lone backslash. -/
def separator (previous : Option Shape) (next : Node) : List Char :=
  match previous with
  | none => []
  | some shape =>
    if shape.joins next.shape then "/**/".toList
    else if shape = .literal ['\\'] && !next.beginsLine then ['\n']
    else []

/-! ## Trees -/

mutual

def Node.write : Node → List Char
  | .leaf _ leaf => leaf.write
  | .function _ name arguments => writeIdent name ++ '(' :: writeFrom none arguments ++ [')']
  | .block _ bracket content => bracket.opening :: writeFrom none content ++ [bracket.closing]

def writeFrom (previous : Option Shape) : List Node → List Char
  | [] => []
  | node :: nodes =>
    separator previous node ++ Node.write node ++ writeFrom (some node.shape) nodes

end

def write (nodes : List Node) : List Char :=
  writeFrom none nodes

end TokenCatalog.Css
