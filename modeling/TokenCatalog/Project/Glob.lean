import TokenCatalog.Project.Tree
import TokenCatalog.Project.Wildcard

/-!
# Path patterns

A pattern names the paths that it selects from a tree, name by name from the folder of the project.
A name may hold wildcards, two stars as a name of their own lead to a folder and to all folders in
it that are no links, and what is written as two dots leads to the folder above and is kept in the
path.
-/

namespace TokenCatalog.Project

inductive GlobPart where
  | deep
  /-- The file or folder of this name; two dots lead to the folder above. -/
  | name (name : List Char)
  | wild (pieces : List Piece)
  /-- The folder itself, written as a slash at the end. -/
  | here
  deriving DecidableEq, Repr

inductive GlobFault where
  | empty
  | absolute
  | noNames
  | onlyHere
  | partlyDeep
  deriving DecidableEq, Repr

def GlobFault.message : GlobFault → String
  | empty => "Unacceptable pattern: ''"
  | absolute => "Non-relative patterns are unsupported"
  | noNames => "tuple index out of range"
  | onlyHere => "'_TerminatingSelector' object has no attribute 'select_from'"
  | partlyDeep => "Invalid pattern: '**' can only be an entire path component"

def hasTwoStars : List Char → Bool
  | '*' :: '*' :: _ => true
  | _ :: cs => hasTwoStars cs
  | [] => false

def isWildcard (c : Char) : Bool := c == '*' || c == '?' || c == '['

def globPart (name : List Char) : Except GlobFault GlobPart :=
  if name = ['*', '*'] then .ok .deep
  else if hasTwoStars name then .error .partlyDeep
  else if name.any isWildcard then .ok (.wild (namePieces name))
  else .ok (.name name)

def globParts (pattern : List Char) : Except GlobFault (List GlobPart) :=
  if pattern.isEmpty then .error .empty
  else if pattern.head? = some '/' then .error .absolute
  else
    match Path.ofText pattern, pattern.getLast? == some '/' with
    | [], false => .error .noNames
    | [], true => .error .onlyHere
    | names, endsInSlash => do
      let parts ← names.mapM globPart
      .ok (if endsInSlash then parts ++ [.here] else parts)

/-- The paths that parts select from the folder at a path. Further parts are looked for in folders
only. -/
def Tree.select (t : Tree) : List GlobPart → Path → Search Path
  | [], path => .only path
  | .here :: _, path => .only path
  | .deep :: parts, path => ((t.below path).bind (t.select parts)).forgiving
  | .name name :: parts, path =>
    let next := path ++ [name]
    .forgiving (.after (if parts.isEmpty then t.exists? next else t.isFolder next) fun isThere =>
      if isThere then t.select parts next else .nothing)
  | .wild pieces :: parts, path =>
    .forgiving (.after (t.list path) fun entries => .each entries fun entry =>
      .after (if parts.isEmpty then .ok true else orAbsent entry.leadsToFolder) fun goesOn =>
        if goesOn && fits pieces entry.name then t.select parts (path ++ [entry.name])
        else .nothing)

/-- The files among paths, unless one of the paths must not be looked at. -/
def Tree.filesAmong (t : Tree) : List Path → Except AccessFault (List Path)
  | [] => .ok []
  | path :: paths => do
    let isFile ← t.isFile path
    let files ← t.filesAmong paths
    .ok (if isFile then path :: files else files)

/-- The files that parts select from the folder of the project. -/
def Tree.filesOf (t : Tree) (parts : List GlobPart) : Except AccessFault (List Path) := do
  if ← t.isFolder [] then
    let s := t.select parts []
    let files ← t.filesAmong s.found
    match s.fault? with
    | some fault => .error fault
    | none => .ok files
  else .ok []

end TokenCatalog.Project
