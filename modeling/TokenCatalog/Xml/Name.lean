import TokenCatalog.Xml.Reference

/-!
# Names and namespaces

A name as written can have a prefix, for which the element or one around it declares a namespace. A
prefix that is not declared is as none. Some declarations are void: the two namespaces of the
standards have their prefixes once and for all.
-/

namespace TokenCatalog.Xml

/-! ## Names as written -/

/-- A name with the prefix that it is written with. -/
structure Name where
  /-- What stands before the colon, if anything does. -/
  space : Option (List Char)
  base : List Char
  deriving DecidableEq, Repr

def Name.text (n : Name) : List Char :=
  match n.space with
  | some space => space ++ ':' :: n.base
  | none => n.base

def isPlainName (cs : List Char) : Bool :=
  cs.head?.any isNameStart && !cs.contains ':'

/-- A name taken apart at its colon; one that has not a name on each side of it is taken whole. -/
def Name.read (cs : List Char) : Name :=
  let space := cs.takeWhile (· != ':')
  match cs.drop space.length with
  | ':' :: base =>
    if isPlainName space && isPlainName base then ⟨some space, base⟩ else ⟨none, cs⟩
  | _ => ⟨none, cs⟩

/-! ## Declarations -/

/-- A namespace declaration: a prefix, empty for the default, and the namespace. -/
structure Declaration where
  space : List Char
  namespaceName : List Char
  deriving DecidableEq, Repr

def standardNamespaces : List Char := "http://www.w3.org/".toList

def implicitDeclaration : Declaration :=
  ⟨"xml".toList, standardNamespaces ++ "XML/1998/namespace".toList⟩

def declarationPrefix : Declaration :=
  ⟨"xmlns".toList, standardNamespaces ++ "2000/xmlns/".toList⟩

/-- The prefix that an attribute declares: empty for the default. -/
def declared? (cs : List Char) : Option (List Char) :=
  let n := Name.read cs
  if n = ⟨none, declarationPrefix.space⟩ then some []
  else if n.space = some declarationPrefix.space then some n.base
  else none

/-- Whether a declaration counts. The standards' prefixes and namespaces cannot be declared, and a
prefix cannot be declared for no namespace. -/
def counts (space : List Char) (namespaceName : List Nat) : Bool :=
  [implicitDeclaration, declarationPrefix].all (fun d =>
    space ≠ d.space && namespaceName ≠ d.namespaceName.map Char.toNat) &&
  (space.isEmpty || !namespaceName.isEmpty)

def Declaration.written (d : Declaration) : List Char × List Char :=
  (if d.space.isEmpty then declarationPrefix.space
    else declarationPrefix.space ++ ':' :: d.space, d.namespaceName)

/-! ## Names in their namespaces -/

structure ExpandedName where
  namespaceName : Option (List Char)
  base : List Char
  deriving DecidableEq, Repr

/-- The declarations of the elements that are open, innermost first. -/
abbrev Scope := List (List Declaration)

def nonEmpty? (cs : List Char) : Option (List Char) :=
  if cs.isEmpty then none else some cs

def Scope.lookup? (scope : Scope) (space : List Char) : Option (List Char) :=
  ((scope ++ [[implicitDeclaration]]).findSome? fun declarations =>
    (declarations.find? (·.space = space)).map (·.namespaceName)).bind nonEmpty?

/-- The prefix of a namespace: of the innermost element that declares it, the last declaration. -/
def Scope.prefixOf? (scope : Scope) (name : List Char) : Option (List Char) :=
  ((scope ++ [[implicitDeclaration]]).findSome? fun declarations =>
    (declarations.reverse.find? (·.namespaceName = name)).map (·.space)).bind nonEmpty?

/-- The name of an element; one without a prefix is in the default namespace. -/
def Scope.elementName (scope : Scope) (n : Name) : ExpandedName :=
  ⟨scope.lookup? (n.space.getD []), n.base⟩

/-- The name of an attribute; one without a prefix is in no namespace. -/
def Scope.attributeName (scope : Scope) (n : Name) : ExpandedName :=
  ⟨n.space.bind scope.lookup?, n.base⟩

/-- The name as written under the prefix that its namespace has in a scope. -/
def Scope.written (scope : Scope) (n : ExpandedName) : Name :=
  ⟨n.namespaceName.bind scope.prefixOf?, n.base⟩

end TokenCatalog.Xml
