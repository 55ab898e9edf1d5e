import TokenCatalog.Log.Record
import TokenCatalog.Project.Access
import TokenCatalog.Project.Tree
import TokenCatalog.Stylesheet.Dialect
import TokenCatalog.Stylesheet.Marker
import TokenCatalog.Text.Lines

/-!
# Loading

Files of a project are read one after the other: raster files as bytes, all others as text. A file
that cannot be read is left out with a warning, and a stylesheet without a marker is left out if
markers are required. The others stay in their order. There are paths at which all is given up.
-/

namespace TokenCatalog.Project

/-! ## Names -/

/-- The name by which a file is known, given the text of the folder of the project and the resolved
path of a root: the resolved path of the file from the root, or its path as it is given if there is
no root or the file is elsewhere. -/
def Tree.displayName (t : Tree) (project : String) (root? : Option Path) (path : Path) :
    Except Looping String :=
  let given := String.ofList (namesBelow project.toList path)
  match root? with
  | none => .ok given
  | some root =>
    if path.isPossible then
      (t.resolve path).map fun place =>
        if root.isPrefixOf place then
          String.ofList (pathOfNames [] (place.drop root.length))
        else given
    else .ok given

/-! ## Content -/

def openMarks : List (List UInt8) := [[0xEF], [0xEF, 0xBB]]

/-- The text of a file: UTF-8, without a byte order mark, with every line end as LF. A file that
ends within the mark is empty. -/
def readText (bytes : List UInt8) : Except Utf8.Fault (List Char) :=
  if openMarks.contains bytes then .ok []
  else (Utf8.decodeMarked bytes).map Text.universalNewlines

inductive LoadFault where
  | looping (loop : Looping)
  | impossible
  /-- The path is that of a stylesheet that is read as bytes, in which no marker can be looked
  for. -/
  | unsearchable
  deriving DecidableEq, Repr

def LoadFault.message : LoadFault → String
  | looping loop => loop.message
  | impossible => "embedded null byte"
  | unsearchable => "a bytes-like object is required, not 'str'"

inductive Outcome where
  | loaded (file : SourceFile)
  | unreadable (name : String) (reason : List Char)
  | unmarked (name : String)
  | givenUp (fault : LoadFault)

def stylesheetExtensions : List String :=
  Stylesheet.dialects.flatMap (·.extensions)

structure LoadOptions where
  /-- The extensions of the files that are read as bytes. -/
  imageExtensions : List String
  requireSentinel : Bool

/-- What becomes of the file of a name with an extension, given its bytes. -/
def LoadOptions.outcome (options : LoadOptions) (name extension : String)
    (content : Except AccessFault (List UInt8)) : Outcome :=
  let searched := options.requireSentinel && stylesheetExtensions.contains extension
  match content with
  | .error fault => .unreadable name fault.message
  | .ok bytes =>
    if options.imageExtensions.contains extension then
      if searched then .givenUp .unsearchable else .loaded ⟨name, .bytes bytes⟩
    else
      match readText bytes with
      | .error fault => .unreadable name fault.message.toList
      | .ok text =>
        if searched && !Text.occursIn Stylesheet.openWord text then .unmarked name
        else .loaded ⟨name, .text (String.ofList text)⟩

def extensionAt (path : Path) : String :=
  String.ofList (Text.lower (suffixOf (path.getLast?.getD [])))

/-! ## Many files -/

structure Reader where
  name : Path → Except Looping String
  read : Path → Except AccessFault (List UInt8)

def LoadOptions.outcomeAt (options : LoadOptions) (reader : Reader) (path : Path) : Outcome :=
  match reader.name path with
  | .error loop => .givenUp (.looping loop)
  | .ok name =>
    if path.isPossible then options.outcome name (extensionAt path) (reader.read path)
    else .givenUp .impossible

def Outcome.goesOn : Outcome → Bool
  | givenUp _ => false
  | _ => true

def loadedFiles : List Outcome → Except LoadFault (List SourceFile)
  | [] => .ok []
  | .givenUp fault :: _ => .error fault
  | .loaded file :: outcomes => (loadedFiles outcomes).map (file :: ·)
  | _ :: outcomes => loadedFiles outcomes

def Outcome.record? : Outcome → Option Log.Record
  | loaded _ => none
  | unreadable name reason =>
    some
      { level := .warning
        message := "Could not read " ++ name ++ ": " ++ String.ofList reason }
  | unmarked name =>
    some
      { level := .debug
        message := "Skipping " ++ name ++ ": no " ++ String.ofList Stylesheet.openWord ++
          " marker" }
  | givenUp _ => none

/-- What is reported of outcomes, up to the one at which all is given up. -/
def loadRecords (outcomes : List Outcome) : List Log.Record :=
  (outcomes.takeWhile Outcome.goesOn).filterMap Outcome.record?

/-- What came of loading files, and what was reported on the way. -/
structure Loading where
  records : List Log.Record
  result : Except LoadFault (List SourceFile)

/-- Loads the files at any paths, one after the other, until all is given up. -/
def LoadOptions.load (options : LoadOptions) (reader : Reader) (paths : List Path) : Loading :=
  let outcomes := paths.map (options.outcomeAt reader)
  ⟨loadRecords outcomes, loadedFiles outcomes⟩

/-- Loads the files at any paths, those below a root with their names from there. -/
def LoadOptions.loadFrom (options : LoadOptions) (t : Tree) (project : String) (root? : Option Path)
    (read : Path → Except AccessFault (List UInt8)) (paths : List Path) : Loading :=
  match root?.mapM t.resolve with
  | .error loop => ⟨[], .error (.looping loop)⟩
  | .ok root? => options.load ⟨t.displayName project root?, read⟩ paths

end TokenCatalog.Project
