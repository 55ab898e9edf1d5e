import TokenCatalog.Css.Lexeme

/-!
# The tree of a stylesheet

Lexemes nest by their brackets. A closing bracket belongs to the innermost open function or block
if that is of its kind; otherwise it is a fault there. Whatever is open at the end closes there.
-/

namespace TokenCatalog.Css

inductive Opener where
  | function (name : List Char)
  | block (bracket : Bracket)

def Opener.bracket : Opener → Bracket
  | function _ => .round
  | block bracket => bracket

/-- A row that is still open: where and by what it was opened, and the nodes before it in the row
around it, the last one first. -/
structure Frame where
  position : Position
  opener : Opener
  before : List Node

def Frame.close (frame : Frame) (content : List Node) : Node :=
  match frame.opener with
  | .function name => .function frame.position name content
  | .block bracket => .block frame.position bracket content

/-- Open rows, innermost first, and the nodes of the innermost one, the last one first. -/
structure Nesting where
  frames : List Frame
  current : List Node

def Nesting.add (n : Nesting) (l : Located) : Nesting :=
  match l.lexeme with
  | .leaf leaf => ⟨n.frames, .leaf l.position leaf :: n.current⟩
  | .openFunction name => ⟨⟨l.position, .function name, n.current⟩ :: n.frames, []⟩
  | .openBlock bracket => ⟨⟨l.position, .block bracket, n.current⟩ :: n.frames, []⟩
  | .close bracket =>
    match n.frames with
    | frame :: frames =>
      if frame.opener.bracket = bracket then
        ⟨frames, frame.close n.current.reverse :: frame.before⟩
      else ⟨n.frames, .leaf l.position (.fault (.unmatched bracket)) :: n.current⟩
    | [] => ⟨[], .leaf l.position (.fault (.unmatched bracket)) :: n.current⟩

/-- The nodes of the outermost row once every open row is closed. -/
def closeAll : List Frame → List Node → List Node
  | [], current => current.reverse
  | frame :: frames, current => closeAll frames (frame.close current.reverse :: frame.before)

def nest (lexemes : List Located) : List Node :=
  let n := lexemes.foldl Nesting.add ⟨[], []⟩
  closeAll n.frames n.current

def parse (cs : List Char) : List Node :=
  nest (lexemes cs)

/-- The single component value of a text, blanks and comments aside; none if there is not exactly
one. -/
def parseOne? (cs : List Char) : Option Node :=
  match significant (parse cs) with
  | [node] => some node
  | _ => none

end TokenCatalog.Css
