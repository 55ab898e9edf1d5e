import TokenCatalog.Command.Terminal
import TokenCatalog.Settings.Load

/-!
# Problems

What a command reports when it cannot do what was asked: what kind of thing went wrong, a message, a
hint what to do, further details and the exit code.
-/

namespace TokenCatalog.Command

inductive Category where
  | configuration
  | fileSystem
  | validation
  | sourceDocument
  | runtime
  deriving DecidableEq, Repr

def Category.all : List Category :=
  [configuration, fileSystem, validation, sourceDocument, runtime]

def Category.word : Category → String
  | configuration => "configuration"
  | fileSystem => "file_system"
  | validation => "validation"
  | sourceDocument => "source_document"
  | runtime => "runtime"

def Category.ofWord? (word : String) : Option Category :=
  Category.all.find? (·.word = word)

structure Problem where
  category : Category
  message : String
  suggestion : Option String := none
  details : List (String × Json) := []
  exitCode : Int := 1
  deriving Repr

def known (details : List (String × Option String)) : List (String × Json) :=
  details.filterMap fun (name, value?) => value?.map fun value => (name, .str value)

/-- A suggestion, or another one in the place of a missing or empty one. -/
def suggestionOr (fallback : String) (suggestion? : Option String) : Option String :=
  match suggestion? with
  | some s => some (if s.isEmpty then fallback else s)
  | none => some fallback

namespace Problem

/-! ## Kinds of problems -/

def projectNotFound (path : String) : Problem where
  category := .fileSystem
  message := "Project directory not found: " ++ path
  suggestion := some "Pass the directory that holds your stylesheets, icons and images"
  details := known [("path", some path)]

def outputWrite (path reason : String) : Problem where
  category := .fileSystem
  message := "Cannot write source document: " ++ reason
  suggestion := some "Choose a writable location with --output"
  details := known [("path", some path)]

def configuration (message : String) (configFile? suggestion? : Option String) : Problem where
  category := .configuration
  message := message
  suggestion := suggestionOr "Check the keys and values in design-tokens.config.json" suggestion?
  details := known [("config_file", configFile?)]

def sourceDocument (message : String) (path? : Option String) : Problem where
  category := .sourceDocument
  message := message
  suggestion := some "Regenerate it with 'design-tokens build <project>'"
  details := known [("path", path?)]

def validation (message : String) (suggestion? : Option String) : Problem where
  category := .validation
  message := message
  suggestion := suggestionOr "Run 'design-tokens <command> --help' for usage" suggestion?
  exitCode := 2

/-- Anything else. A verbose run shows more of it, so that there is nothing to suggest. -/
def unforeseen (message : String) (verbose : Bool) : Problem where
  category := .runtime
  message := message
  suggestion := if verbose then none else some "Re-run with --verbose for a traceback"

/-- A fault of the settings, given the path of the configuration file if there is one. -/
def ofSettings (configFile? : Option String) (verbose : Bool) : SettingsFault → Problem
  | .undecodable fault => unforeseen fault.message verbose
  | .tooManyDigits count => unforeseen (SettingsFault.tooManyDigits count).message verbose
  | .halfPair => unforeseen SettingsFault.halfPair.message verbose
  | fault => configuration fault.message configFile? none

/-! ## Wording -/

def paint (color : Bool) (number : Nat) (cs : List Char) : List Char :=
  if color then styled number cs else cs

/-- A problem as it is shown: the message, the suggestion unless it is empty, and a line per
detail. -/
def format (p : Problem) (color : Bool) : List Char :=
  let suggestion := match p.suggestion with
    | some s =>
      if s.isEmpty then [] else [paint color 96 "Suggestion:".toList ++ ' ' :: s.toList]
    | none => []
  Text.joinWith ['\n']
    ([paint color 91 "Error:".toList ++ ' ' :: p.message.toList] ++ suggestion ++
      p.details.map fun (name, value) =>
        paint color 2 (' ' :: ' ' :: name.toList ++ ':' :: ' ' :: value.display))

/-- What stands for a trace while no exception is being handled. -/
def noTrace : List Char := "NoneType: None\n".toList

/-- A problem as a command reports it, with its trace if that is wanted. -/
def report (p : Problem) (color : Bool) (trace? : Option (List Char)) : List Char :=
  p.format color ++
    match trace? with
    | some trace => "\n\nTraceback:\n".toList ++ trace
    | none => []

end Problem

end TokenCatalog.Command
