import TokenCatalog.Project.Access
import TokenCatalog.Source.File

/-!
# Project trees

A project is known by what a machine answers when it is asked about paths: what is at a path, what
is in a folder, and where a path leads. A path is the list of its names from the folder of the
project; the name of two dots leads to the folder above, which may be outside of the project. Links
are followed, except where folders are gone through at any depth. Any question may be refused.
-/

namespace TokenCatalog.Project

/-! ## Paths -/

abbrev Path := List (List Char)

def parentName : List Char := ['.', '.']

def Path.ofText (text : List Char) : Path :=
  pathComponents text

def Path.text (path : Path) : List Char :=
  Text.joinWith ['/'] path

/-- Whether something can be looked for at a path: the null character ends a name for the
machine. -/
def Path.isPossible (path : Path) : Bool :=
  path.all fun name => !name.contains '\x00'

/-- The slashes that an absolute path begins with: one, or two where there are exactly two. -/
def leadingSlashes (path : List Char) : List Char :=
  let slashes := path.takeWhile (· == '/')
  if slashes.length = 2 then slashes else slashes.take 1

def isAbsolute (path : List Char) : Bool := path.head? == some '/'

def pathOfNames (leading : List Char) (names : Path) : List Char :=
  if leading.isEmpty && names.isEmpty then ['.'] else leading ++ names.text

/-- A path in normal form: with single slashes, and without names that stay in place. -/
def normalPath (path : List Char) : List Char :=
  pathOfNames (leadingSlashes path) (Path.ofText path)

def parentPath (path : List Char) : List Char :=
  pathOfNames (leadingSlashes path) (Path.ofText path).dropLast

def namesBelow (folder : List Char) (names : Path) : List Char :=
  pathOfNames (leadingSlashes folder) (Path.ofText folder ++ names)

def pathBelow (folder path : List Char) : List Char :=
  if isAbsolute path then normalPath path else namesBelow folder (Path.ofText path)

/-! ## Answers of a machine -/

inductive Kind where
  | file
  | folder
  | special
  deriving DecidableEq, Repr

structure Entry where
  name : List Char
  /-- Whether a folder is there, links being followed. -/
  leadsToFolder : Except AccessFault Bool
  isFolder : Except AccessFault Bool

/-- **A project tree**: the answers to what can be asked about paths. Folders that are no links lie
in each other only to some height. -/
structure Tree where
  stat : Path → Except AccessFault Kind
  list : Path → Except AccessFault (List Entry)
  /-- The path from the root of the machine to where a path leads, without links and names of two
  dots. -/
  resolve : Path → Except Looping Path
  height : Path → Nat
  height_lt : ∀ {path entries entry}, list path = .ok entries → entry ∈ entries →
    entry.isFolder = .ok true → height (path ++ [entry.name]) < height path

namespace Tree

variable (t : Tree)

/-- Whether what is at a path is of some kind. Nothing is at a path at which nothing can be looked
for. -/
def isAny (wanted : Kind → Bool) (path : Path) : Except AccessFault Bool :=
  if path.isPossible then orAbsent ((t.stat path).map wanted) else .ok false

def exists? (path : Path) : Except AccessFault Bool := t.isAny (fun _ => true) path

def isFile (path : Path) : Except AccessFault Bool := t.isAny (· == .file) path

def isFolder (path : Path) : Except AccessFault Bool := t.isAny (· == .folder) path

end Tree

/-! ## Searches -/

/-- What a search comes to, one after the other, and what it ends with if it is refused
something. -/
structure Search (α : Type) where
  found : List α
  fault? : Option AccessFault

namespace Search

variable {α β : Type}

def nothing : Search α := ⟨[], none⟩

def only (a : α) : Search α := ⟨[a], none⟩

def refused (fault : AccessFault) : Search α := ⟨[], some fault⟩

/-- One search and then another, unless the first one ends with a fault. -/
def andThen (s s' : Search α) : Search α :=
  match s.fault? with
  | some _ => s
  | none => ⟨s.found ++ s'.found, s'.fault?⟩

def each (xs : List β) (f : β → Search α) : Search α :=
  xs.foldr (fun x rest => (f x).andThen rest) nothing

def bind (s : Search β) (f : β → Search α) : Search α :=
  (each s.found f).andThen ⟨[], s.fault?⟩

def after (answer : Except AccessFault β) (f : β → Search α) : Search α :=
  match answer with
  | .ok b => f b
  | .error fault => refused fault

/-- A search that ends, but not with a fault, where permission is lacking. -/
def forgiving (s : Search α) : Search α :=
  { s with fault? := s.fault?.filter fun fault => !fault.cause.isDenial }

end Search

/-- The paths of a folder and of all folders below it that are no links. -/
def Tree.below (t : Tree) (folder : Path) : Search Path :=
  .andThen (.only folder) (.forgiving
    (match _ : t.list folder with
    | .error fault => .refused fault
    | .ok entries => .each entries.attach fun ⟨entry, _⟩ =>
      match _ : entry.isFolder with
      | .ok true => t.below (folder ++ [entry.name])
      | answer => .after (orAbsent answer) fun _ => .nothing))
termination_by t.height folder
decreasing_by exact t.height_lt ‹_› ‹_› ‹_›

end TokenCatalog.Project
