import TokenCatalog.Css.Tree
import TokenCatalog.Css.Write
import TokenCatalog.Stylesheet.Dialect
import TokenCatalog.Text.Blank

/-!
# Statements

The component values of a block as a row of comments, declarations and rules, each rule with the
statements of its own block. A comment counts only between statements; inside one it belongs to the
value or the selector.
-/

namespace TokenCatalog.Stylesheet

open TokenCatalog.Css (Node Position significant)

/-- A name and the value nodes after its colon, with the line that the declaration ends on. -/
structure Declaration where
  name : List Char
  nodes : List Node
  /-- Where the value begins, or the name if there is no value. -/
  position : Position
  endLine : Nat

inductive Statement where
  | comment (text : List Char) (line : Nat)
  | declaration (declaration : Declaration)
  /-- The nodes before the block, the nodes of the block, and its statements. -/
  | rule (head body : List Node) (statements : List Statement)

/-! ## Declarations -/

def skipFiller (nodes : List Node) : List Node :=
  nodes.dropWhile (·.isFiller)

def hasContent (nodes : List Node) : Bool :=
  nodes.any (!·.isFiller)

/-- The name that nodes declare and the nodes after it: an identifier, or a variable of the
dialect. -/
def declaredName? (dialect : Dialect) : List Node → Option (List Char × List Node)
  | .leaf _ (.ident name) :: rest => some (name, rest)
  | .leaf _ (.literal ['$']) :: rest =>
    if dialect.variableSign = some '$' then
      match skipFiller rest with
      | .leaf _ (.ident name) :: rest => some ('$' :: name, rest)
      | _ => none
    else none
  | .leaf _ (.atKeyword name) :: rest =>
    if dialect.variableSign = some '@' then some ('@' :: name, rest) else none
  | _ => none

/-- The declaration that nodes are: a name, a colon, and a value that may be empty. -/
def declaration? (dialect : Dialect) (nodes : List Node) (endLine : Nat) :
    Option Declaration := do
  let nodes := skipFiller nodes
  let (name, rest) ← declaredName? dialect nodes
  match skipFiller rest with
  | colon :: value =>
    if colon.isLiteral [':'] then
      let anchor ← (skipFiller value).head? <|> nodes.head?
      some ⟨name, value, anchor.position, endLine⟩
    else none
  | [] => none

def Declaration.value (d : Declaration) : List Char :=
  Text.strip (Css.write (Css.withoutComments d.nodes))

/-- The text of a rule's selector, without comments and with single spaces. -/
def selectorOf (head : List Node) : List Char :=
  Text.collapse (Css.write (Css.withoutComments head))

/-! ## Statements of a block -/

/-- Whether a brace after these nodes is an interpolation and opens no block. -/
def endsInInterpolation (dialect : Dialect) (nodes : List Node) : Bool :=
  match dialect.interpolation, nodes.getLast? with
  | some sign, some node => node.isLiteral [sign]
  | _, _ => false

/-- The statements of a block, from a node on; `current` are the nodes of the statement that has
begun. -/
def statementsFrom (dialect : Dialect) (current : List Node) : List Node → List Statement
  | [] =>
    if hasContent current then
      ((current.getLast?.bind fun last =>
        declaration? dialect current last.position.line).map .declaration).toList
    else []
  | .leaf p (.comment text) :: nodes =>
    if hasContent current then statementsFrom dialect (current ++ [.leaf p (.comment text)]) nodes
    else .comment text p.line :: statementsFrom dialect current nodes
  | .leaf p (.literal [';']) :: nodes =>
    ((declaration? dialect current p.line).map .declaration).toList ++
      statementsFrom dialect [] nodes
  | .leaf p leaf :: nodes => statementsFrom dialect (current ++ [.leaf p leaf]) nodes
  | .function p name arguments :: nodes =>
    statementsFrom dialect (current ++ [.function p name arguments]) nodes
  | .block p bracket content :: nodes =>
    if bracket = .curly && !endsInInterpolation dialect current then
      .rule current content (statementsFrom dialect [] content) :: statementsFrom dialect [] nodes
    else statementsFrom dialect (current ++ [.block p bracket content]) nodes
termination_by nodes => sizeOf nodes

def statements (dialect : Dialect) (nodes : List Node) : List Statement :=
  statementsFrom dialect [] nodes

end TokenCatalog.Stylesheet
