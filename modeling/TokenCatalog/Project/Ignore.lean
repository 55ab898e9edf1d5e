import TokenCatalog.Json.Display
import TokenCatalog.Project.Wildcard
import TokenCatalog.Text.Blank

/-!
# Ignore rules

A line of an ignore list is a pattern for paths, by the rules that version control has made common:
a pattern without a slash before its end fits at any depth, one with a slash only from the root; two
stars as a name of their own fit any number of folders; what lies under something that fits is
ignored as well; an exclamation mark takes back what earlier lines say. The last line that fits a
path decides.

Patterns are compared with the characters of a path, slashes included, so that a negated class also
fits a slash.
-/

namespace TokenCatalog.Project

/-! ## Patterns -/

inductive PathPart where
  | piece (p : Piece)
  /-- No folder or any number of them, with the slash after each. -/
  | folders
  | throughSlash
  /-- No folder or any number of them, with the slash before each. -/
  | below
  | run
  | boundary
  deriving DecidableEq, Repr

/-- Whether a run of any characters goes on with this one; it stays on its line. -/
def staysOnLine (c : Char) : Bool := c != '\n'

def begins : List PathPart → List Char → Bool
  | [], _ => true
  | .folders :: parts, [] => begins parts []
  | .folders :: parts, c :: cs =>
    begins parts (c :: cs) || (staysOnLine c && begins (.throughSlash :: parts) cs)
  | .throughSlash :: _, [] => false
  | .throughSlash :: parts, c :: cs =>
    (c == '/' && begins parts cs) || (staysOnLine c && begins (.throughSlash :: parts) cs)
  | .below :: parts, '/' :: c :: cs =>
    begins parts ('/' :: c :: cs) || (staysOnLine c && begins (.run :: parts) cs)
  | .below :: parts, cs => begins parts cs
  | .run :: parts, [] => begins parts []
  | .run :: parts, c :: cs =>
    begins parts (c :: cs) || (staysOnLine c && begins (.run :: parts) cs)
  | .boundary :: parts, [] => begins parts []
  | .boundary :: parts, c :: cs =>
    (c == '/' && begins parts cs) || (c == '\n' && cs.isEmpty && begins parts (c :: cs))
  | .piece .many :: parts, [] => begins parts []
  | .piece .many :: parts, c :: cs =>
    begins parts (c :: cs) || (c != '/' && begins (.piece .many :: parts) cs)
  | .piece _ :: _, [] => false
  | .piece p :: parts, c :: cs => p.accepts c && begins parts cs
termination_by parts cs => parts.length + cs.length

inductive PathPattern where
  | every
  | nested
  | startingWith (parts : List PathPart)
  deriving DecidableEq, Repr

def PathPattern.fits : PathPattern → List Char → Bool
  | every, path => path.any staysOnLine
  | nested, path => path.contains '/'
  | startingWith parts, path => begins parts path

/-! ## Names in a pattern -/

inductive NameFault where
  | danglingEscape
  /-- A class has no end, or a range of it ends before it begins. -/
  | badClass
  deriving DecidableEq, Repr

def escapedPieces (cs : List Char) : Except NameFault (List Piece) :=
  match cs with
  | [] => .ok []
  | ['\\'] => .error .danglingEscape
  | '\\' :: c :: rest => do .ok (.char c :: (← escapedPieces rest))
  | '*' :: rest => do .ok (.many :: (← escapedPieces rest))
  | '?' :: rest => do .ok (.one :: (← escapedPieces rest))
  | '[' :: rest =>
    match h : class? ['!', '^'] rest with
    | some (k, after) =>
      have := length_of_class? h
      if k.ranges.all fun (first, last) => first ≤ last then do
        .ok (.oneOf k :: (← escapedPieces after))
      else .error .badClass
    | none => .error .badClass
  | c :: rest => do .ok (.char c :: (← escapedPieces rest))
termination_by cs.length

def anyFolders : List Char := ['*', '*']

/-- The parts of one name: a star alone does not fit an empty name. -/
def nameParts (name : List Char) : Except NameFault (List PathPart) :=
  if name = ['*'] then .ok [.piece .one, .piece .many]
  else (escapedPieces name).map fun pieces => pieces.map .piece

/-- The parts of the names after the first one, given whether a slash must stand before them. -/
def laterParts (slash : Bool) : List (List Char) → Except NameFault (List PathPart)
  | [] => .ok []
  | [name] =>
    if name = anyFolders then .ok [.piece (.char '/')]
    else do
      let parts ← nameParts name
      .ok ((if slash then [.piece (.char '/')] else []) ++ parts ++ [.boundary])
  | name :: names =>
    if name = anyFolders then do .ok (.below :: (← laterParts true names))
    else do
      let parts ← nameParts name
      let later ← laterParts true names
      .ok ((if slash then [.piece (.char '/')] else []) ++ parts ++ later)

def pathParts : List (List Char) → Except NameFault (List PathPart)
  | [] => .ok []
  | name :: names =>
    if name = anyFolders then do .ok (.folders :: (← laterParts false names))
    else laterParts false (name :: names)

/-! ## Lines -/

def collapseRuns (item : List Char) : List (List Char) → List (List Char)
  | a :: b :: rest =>
    if a = item && b = item then collapseRuns item (b :: rest)
    else a :: collapseRuns item (b :: rest)
  | rest => rest

/-- The names of a pattern, with those that its form implies; none if nothing is left of it. -/
def impliedNames? (names : List (List Char)) : Option (List (List Char)) :=
  let rooted := match names with
    | [] :: rest => rest
    | [name] => if name = anyFolders then [name] else [anyFolders, name]
    | [name, []] => if name = anyFolders then [name, []] else [anyFolders, name, []]
    | names => names
  match rooted.getLast? with
  | none => none
  | some [] => some (collapseRuns anyFolders (rooted.dropLast ++ [anyFolders]))
  | some _ => some (collapseRuns anyFolders rooted)

structure IgnoreRule where
  ignores : Bool
  pattern : PathPattern
  deriving DecidableEq, Repr

structure IgnoreFault where
  line : List Char
  deriving DecidableEq, Repr

def IgnoreFault.message (fault : IgnoreFault) : List Char :=
  "Invalid git pattern: ".toList ++ quoted (String.ofList fault.line)

/-- The pattern of names; none if it can fit no path. -/
def PathPattern.ofNames? (line : List Char) (names : List (List Char)) :
    Except IgnoreFault (Option PathPattern) :=
  match impliedNames? names with
  | none => .error ⟨line⟩
  | some [name] =>
    if name = anyFolders then
      .ok (some (if names.getLast? = some [] then .nested else .every))
    else finish [name]
  | some implied =>
    if implied = [anyFolders, ['*']] then .ok (some .every)
    else if implied = [anyFolders, ['*'], anyFolders] then .ok (some .nested)
    else finish implied
where
  /-- The pattern of names that have no meaning of their own. -/
  finish (implied : List (List Char)) : Except IgnoreFault (Option PathPattern) :=
    match pathParts implied with
    | .ok parts => .ok (some (.startingWith parts))
    | .error .danglingEscape => .error ⟨line⟩
    | .error .badClass => .ok none

/-- The rule of a line; none if it can fit no path. -/
def ignoreRule? (line : List Char) : Except IgnoreFault (Option IgnoreRule) :=
  if line = ['/'] then .ok none
  else
    let ignores := line.head? != some '!'
    let names := Text.pieces (· == '/') (if ignores then line else line.drop 1)
    (PathPattern.ofNames? line names).map fun pattern =>
      pattern.map fun pattern => ⟨ignores, pattern⟩

/-! ## Lists -/

/-- The lines of a list that say something: neither blank nor comments. -/
def ignoreLines (patterns : List (List Char)) : List (List Char) :=
  (patterns.map Text.strip).filter fun line => !line.isEmpty && line.head? != some '#'

def ignoreRules (patterns : List (List Char)) : Except IgnoreFault (List IgnoreRule) := do
  let rules ← (ignoreLines patterns).mapM ignoreRule?
  .ok (rules.filterMap id)

def withoutRoot : List Char → List Char
  | '/' :: path => path
  | '.' :: '/' :: path => path
  | path => path

def ignored (rules : List IgnoreRule) (path : List Char) : Bool :=
  match (rules.filter fun rule => rule.pattern.fits (withoutRoot path)).getLast? with
  | some rule => rule.ignores
  | none => false

end TokenCatalog.Project
