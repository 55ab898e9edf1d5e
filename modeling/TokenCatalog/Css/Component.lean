import TokenCatalog.Number.Decimal
import TokenCatalog.Text.Lowercase

/-!
# Component values

The tree that a stylesheet is read as: single tokens, functions with their arguments, and bracketed
blocks, each with the position of its first character. Nothing is dropped: blanks and comments are
nodes, and so is a fault that the tokens do not allow.
-/

namespace TokenCatalog.Css

/-! ## Positions -/

structure Position where
  line : Nat
  column : Nat
  deriving DecidableEq, Repr, Inhabited

def Position.start : Position := ⟨1, 1⟩

def Position.advance (p : Position) (c : Char) : Position :=
  if c = '\n' then ⟨p.line + 1, 1⟩ else ⟨p.line, p.column + 1⟩

def Position.after (p : Position) (cs : List Char) : Position :=
  cs.foldl Position.advance p

/-! ## Numerals -/

structure Numeral where
  text : List Char
  deriving DecidableEq, Repr, Inhabited

def Numeral.isInteger (n : Numeral) : Bool :=
  n.text.all fun c => c != '.' && c != 'e' && c != 'E'

def Numeral.value (n : Numeral) : Binary64 :=
  (Decimal.read n.text).toBinary64

/-- The whole number that a numeral without fraction and exponent denotes. -/
def Numeral.int (n : Numeral) : Int :=
  let d := Decimal.read n.text
  if d.negative then -(d.digits : Int) else d.digits

/-! ## Nodes -/

inductive Bracket where
  | round
  | square
  | curly
  deriving DecidableEq, Repr

/-- What the tokens of a stylesheet do not allow. -/
inductive Fault where
  | unmatched (bracket : Bracket)
  | badString
  | endInString
  | badUrl
  | endInUrl
  deriving DecidableEq, Repr

inductive Leaf where
  | whitespace (text : List Char)
  | comment (text : List Char)
  | ident (name : List Char)
  | atKeyword (name : List Char)
  | hash (name : List Char) (isIdentifier : Bool)
  | string (value : List Char)
  | url (value : List Char)
  | unicodeRange (first last : Nat)
  | number (numeral : Numeral)
  | percentage (numeral : Numeral)
  | dimension (numeral : Numeral) (unit : List Char)
  | literal (text : List Char)
  | fault (fault : Fault)
  deriving DecidableEq, Repr

inductive Node where
  | leaf (position : Position) (leaf : Leaf)
  | function (position : Position) (name : List Char) (arguments : List Node)
  | block (position : Position) (bracket : Bracket) (content : List Node)
  deriving Repr

def Node.position : Node → Position
  | leaf position _ => position
  | function position _ _ => position
  | block position _ _ => position

def Node.leaf? : Node → Option Leaf
  | leaf _ l => some l
  | _ => none

def Node.isComment : Node → Bool
  | leaf _ (.comment _) => true
  | _ => false

def Node.isFiller : Node → Bool
  | leaf _ (.whitespace _) => true
  | leaf _ (.comment _) => true
  | _ => false

def Node.isLiteral (text : List Char) (node : Node) : Bool :=
  node.leaf? = some (.literal text)

def significant (nodes : List Node) : List Node :=
  nodes.filter (!·.isFiller)

def withoutComments (nodes : List Node) : List Node :=
  nodes.filter (!·.isComment)

/-- The runs of nodes between top-level commas, one run more than there are commas. -/
def splitCommas : List Node → List (List Node)
  | [] => [[]]
  | node :: nodes =>
    if node.isLiteral [','] then [] :: splitCommas nodes
    else
      match splitCommas nodes with
      | [] => [[node]]
      | part :: parts => (node :: part) :: parts

/-! ## Brackets and faults -/

def Bracket.opening : Bracket → Char
  | round => '('
  | square => '['
  | curly => '\x7b'

def Bracket.closing : Bracket → Char
  | round => ')'
  | square => ']'
  | curly => '\x7d'

def Fault.message : Fault → String
  | unmatched bracket => String.ofList ("Unmatched ".toList ++ [bracket.closing])
  | badString => "Bad string token"
  | endInString => "EOF in string"
  | badUrl => "bad URL token"
  | endInUrl => "EOF in URL"

structure FaultAt where
  fault : Fault
  position : Position
  deriving DecidableEq, Repr

mutual

def Node.firstFault? : Node → Option FaultAt
  | .leaf position (.fault fault) => some ⟨fault, position⟩
  | .leaf _ _ => none
  | .function _ _ arguments => firstFault? arguments
  | .block _ _ content => firstFault? content

/-- The first fault among nodes, depth first in document order. -/
def firstFault? : List Node → Option FaultAt
  | [] => none
  | node :: nodes =>
    match Node.firstFault? node with
    | some fault => some fault
    | none => firstFault? nodes

end

end TokenCatalog.Css
