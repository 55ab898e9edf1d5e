import TokenCatalog.Json.Basic
import TokenCatalog.Xml.Event

/-!
# The tree of a markup text

Events nest to a tree: the end of an element ends the innermost one of its name and all within.
Names are written with the prefix that the innermost declaration gives their namespace. Declarations
are attributes like the others. Passages of blanks only are a single blank.
-/

namespace TokenCatalog.Xml

inductive Node where
  | element (name : Name) (attributes : List (List Char × List Char)) (children : List Node)
  | text (text : List Char)
  | comment (text : List Char)
  | instruction (text : List Char)
  deriving Repr

/-- Whether a character counts as blank in a passage of blanks. -/
def isPassageBlank (c : Char) : Bool :=
  isBlank c || c == '\x0c'

/-- A passage as it is kept: one of blanks only is a line feed if it holds one and else a space. -/
def passage (cs : List Char) : List Char :=
  if cs.all isPassageBlank then if cs.contains '\n' then ['\n'] else [' '] else cs

/-- The attributes of an element as they are written in a scope, with its declarations; of two with
one name the last value counts. -/
def attributesIn (scope : Scope) (declarations : List Declaration)
    (attributes : List (ExpandedName × List Char)) : List (List Char × List Char) :=
  tableOf (· == ·)
    ((tableOf (· == ·) attributes).map (fun a => ((scope.written a.1).text, a.2)) ++
      declarations.map Declaration.written)

/-! ## Open elements -/

/-- An element that is open: its name and attributes, what it holds so far, the last node first, and
the pieces of character data that have been met since, the last one first. -/
structure Frame where
  name : Name
  attributes : List (List Char × List Char)
  children : List Node
  pending : List (List Char)

def Frame.settle (f : Frame) : Frame :=
  match f.pending with
  | [] => f
  | pieces =>
    { f with children := .text (passage pieces.reverse.flatten) :: f.children, pending := [] }

def Frame.add (f : Frame) (node : Node) : Frame :=
  let f := f.settle
  { f with children := node :: f.children }

def Frame.node (f : Frame) : Node :=
  let f := f.settle
  .element f.name f.attributes f.children.reverse

/-! ## Building -/

/-- Elements that are open, innermost first, the declarations in force, and the root once it has
ended. Elements are noted in the scope only within an element that declares something. -/
structure Building where
  frames : List Frame
  scope : Scope
  root : Option Node

def Building.finish (b : Building) : Building :=
  match b.frames with
  | [] => b
  | [f] => { b with frames := [], root := some f.node }
  | f :: g :: frames => { b with frames := g.add f.node :: frames }

/-- The building after the end of the innermost element of a name. Where a name is open with other
prefixes only, all elements of this name end. -/
def Building.finishTo (b : Building) (name : Name) : Nat → Building
  | 0 => b
  | fuel + 1 =>
    if b.frames.any (·.name.base = name.base) then
      if b.frames.head?.any (·.name = name) then b.finish
      else b.finish.finishTo name fuel
    else b

def Building.update (b : Building) (change : Frame → Frame) : Building :=
  match b.frames with
  | [] => b
  | f :: frames => { b with frames := change f :: frames }

def Building.step (b : Building) : Event → Building
  | .start name declarations attributes =>
    let scope : Scope :=
      if declarations.isEmpty && b.scope.isEmpty then [] else declarations :: b.scope
    let frame : Frame :=
      ⟨scope.written name, attributesIn scope declarations attributes, [], []⟩
    { b with frames := frame :: b.frames, scope := scope }
  | .finish name =>
    { b.finishTo (b.scope.written name) b.frames.length with scope := b.scope.drop 1 }
  | .text cs => b.update fun f => { f with pending := cs :: f.pending }
  | .comment cs => b.update (·.add (.comment (passage cs)))
  | .instruction cs => b.update (·.add (.instruction cs))

/-- The root of the tree of a text, if it has one. What is open at the end ends there. -/
def parse? (cs : List Char) : Except Utf8.Fault (Option Node) := do
  let b := (← events cs).foldl Building.step ⟨[], [], none⟩
  return (Nat.repeat Building.finish b.frames.length b).root

/-! ## Elements -/

mutual

def Node.elements : Node → List Node
  | .element name attributes children =>
    .element name attributes children :: elementsOf children
  | _ => []

def elementsOf : List Node → List Node
  | [] => []
  | node :: nodes => Node.elements node ++ elementsOf nodes

end

end TokenCatalog.Xml
