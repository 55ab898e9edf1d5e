import TokenCatalog.Catalog.Merge
import TokenCatalog.Stylesheet.Marker
import TokenCatalog.Stylesheet.Statement
import TokenCatalog.Value.Classify

/-!
# Token scopes

Walking the statements of a block. A marker opens a scope for the declarations after it in its block
and for the next rule; a block begins in the scope that its rule was given, and what happens inside
it ends with it. Declarations in a scope are tokens; outside one, literals are reported. A comment
on the line where a token ends is its description.
-/

namespace TokenCatalog.Stylesheet

open TokenCatalog.Css (Node ColorFault significant)

/-- What was found in a stylesheet, in source order. -/
structure Findings where
  tokens : List Token := []
  hardCoded : List HardCodedValue := []
  keyframes : List (List Char) := []

instance : Append Findings where
  append a b := ⟨a.tokens ++ b.tokens, a.hardCoded ++ b.hardCoded, a.keyframes ++ b.keyframes⟩

/-- The dialect, the file and the selector of a block. -/
structure Place where
  dialect : Dialect
  filename : String
  selector : List Char

/-! ## Tokens -/

def optional : Option String → Json
  | some s => .str s
  | none => .null

def stripSigil (dialect : Dialect) (name : List Char) : List Char :=
  (dialect.sigils.findSome? fun sigil =>
    if sigil.toList.isPrefixOf name then some (name.drop sigil.length) else none).getD name

def varTarget? (name : List Char) (arguments : List Node) : Option (List Char) :=
  match significant arguments with
  | .leaf _ (.ident argument) :: _ =>
    if Text.asciiLower name = "var".toList && "--".toList.isPrefixOf argument then
      some (argument.drop 2)
    else none
  | _ => none

/-- The variable that a value refers to, if it is a single reference. -/
def aliasTarget? (dialect : Dialect) (nodes : List Node) : Option (List Char) :=
  match significant nodes with
  | [.function _ name arguments] => varTarget? name arguments
  | [.leaf _ (.literal ['$']), .leaf _ (.ident name)] =>
    if dialect.variableSign = some '$' then some name else none
  | [.leaf _ (.atKeyword name)] => if dialect.variableSign = some '@' then some name else none
  | _ => none

def tokenOf (place : Place) (scope : Scope) (d : Declaration) : Except ColorFault Token := do
  let name := stripSigil place.dialect d.name
  let c ← Value.classify d.value (some name)
  let target := (aliasTarget? place.dialect d.nodes).map String.ofList
  .ok
    { name := .str (String.ofList name)
      value := .str c.value
      sourceValue := .str (String.ofList d.value)
      kind := c.kind
      category := optional scope.category
      presenter := optional scope.presenter
      isAlias := .bool target.isSome
      aliasOf := optional target
      sourceFile := .str place.filename }

/-- The literal that a declaration outside every scope is, if it is worth reporting. -/
def literalOf (place : Place) (d : Declaration) : Except ColorFault (List HardCodedValue) := do
  let c ← Value.classify d.value (some d.name)
  if c.isHardCoded then
    .ok
      [{ value := .str (String.ofList d.value)
         kind := c.kind
         location := ⟨.str place.filename, .int d.position.line, .int d.position.column⟩
         property := .str (String.ofList d.name)
         selector := .str (String.ofList place.selector) }]
  else .ok []

/-- A comment as a description: stars and blanks around it taken off, blanks inside it single. -/
def descriptionOf (comment : List Char) : Json :=
  .str (String.ofList (Text.collapse (Text.stripBy (fun c => c == ' ' || c == '*') comment)))

/-! ## Keyframes -/

/-- Whether a name in lower case is that of a keyframes rule, with or without a vendor's name. A
line feed may follow it. -/
def isKeyframesName (name : List Char) : Bool :=
  let name := Css.dropFinalNewline name
  name == "keyframes".toList ||
    match name with
    | '-' :: rest =>
      let vendor := rest.takeWhile Char.isLower
      !vendor.isEmpty && rest.drop vendor.length == "-keyframes".toList
    | _ => false

def isKeyframes (head : List Node) : Bool :=
  match significant head with
  | .leaf _ (.atKeyword name) :: _ => isKeyframesName (Text.asciiLower name)
  | _ => false

def ruleText (head body : List Node) : List Char :=
  Text.strip (Css.write head ++ '\x7b' :: Css.write body ++ ['\x7d'])

/-! ## Walking -/

/-- What is known between two statements of a block. -/
structure Walk where
  active : Option Scope
  /-- The scope of the next rule, if a marker stands before it. -/
  pending : Option Scope
  /-- The token before, with the line it ends on; comments may still describe it. -/
  previous : Option (Token × Nat)

def Walk.enter (scope : Option Scope) : Walk :=
  ⟨scope, none, none⟩

def Walk.settled (w : Walk) : List Token :=
  w.previous.toList.map (·.1)

/-- The walk after a comment that marks nothing. After a marker it may name the presenter; otherwise
it describes a token that ends on its line. -/
def Walk.remark (w : Walk) (text : List Char) (line : Nat) : Walk :=
  match w.pending, presenter? text with
  | some scope, some name =>
    let scope := { scope with presenter := some (String.ofList name) }
    { w with active := some scope, pending := some scope }
  | _, _ =>
    match w.previous with
    | some (token, endLine) =>
      if endLine = line then
        { w with previous := some ({ token with description := descriptionOf text }, endLine) }
      else w
    | none => w

def Walk.comment (w : Walk) (text : List Char) (line : Nat) : Walk :=
  match readMarker text with
  | some .closes => { w with active := none, pending := none }
  | some (.opens scope) => { w with active := some scope, pending := some scope }
  | none => w.remark text line

/-- The scope of a rule's block: that of the marker before the rule, or the active one where the
block around it is itself in a scope. -/
def Walk.childScope (w : Walk) (outer : Option Scope) : Option Scope :=
  w.pending <|> if outer.isSome then w.active else none

def Walk.declaration (w : Walk) (place : Place) (d : Declaration) :
    Except ColorFault (Findings × Walk) := do
  if d.value.isEmpty then .ok ({}, ⟨w.active, none, none⟩)
  else
    match w.active with
    | some scope =>
      let token ← tokenOf place scope d
      .ok ({}, ⟨w.active, none, some (token, d.endLine)⟩)
    | none => .ok ({ hardCoded := ← literalOf place d }, ⟨w.active, none, none⟩)

/-- What the statements of a block hold; `outer` is the scope in which the block began. -/
def walk (place : Place) (outer : Option Scope) (w : Walk) :
    List Statement → Except ColorFault Findings
  | [] => .ok { tokens := w.settled }
  | .comment text line :: rest => walk place outer (w.comment text line) rest
  | .declaration d :: rest => do
    let (found, next) ← w.declaration place d
    let after ← walk place outer next rest
    .ok ({ tokens := w.settled } ++ found ++ after)
  | .rule head body inner :: rest => do
    let scope := w.childScope outer
    let found ←
      if isKeyframes head then
        .ok { keyframes := if place.dialect.collectsKeyframes then [ruleText head body] else [] }
      else
        walk { place with selector := selectorOf head } scope (.enter scope) inner
    let after ← walk place outer ⟨w.active, none, none⟩ rest
    .ok ({ tokens := w.settled } ++ found ++ after)

end TokenCatalog.Stylesheet
