import TokenCatalog.Json.Basic
import TokenCatalog.Json.Display

/-!
# Log records

What the library reports beside its results: how grave an event is, what happened, and which file it
happened to. A level is a rank with a name; ranks between the named ones are allowed.
-/

namespace TokenCatalog.Log

/-! ## Levels -/

/-- How grave an event is: the greater the rank, the graver. -/
structure Level where
  rank : Int
  deriving DecidableEq, Repr

namespace Level

def unset : Level := ⟨0⟩

def debug : Level := ⟨10⟩

def info : Level := ⟨20⟩

def warning : Level := ⟨30⟩

def error : Level := ⟨40⟩

def critical : Level := ⟨50⟩

def named : List (Level × String) :=
  [(unset, "NOTSET"), (debug, "DEBUG"), (info, "INFO"), (warning, "WARNING"), (error, "ERROR"),
    (critical, "CRITICAL")]

def aliases : List (String × Level) :=
  [("WARN", warning), ("FATAL", critical)]

/-- The name of a level; one without a name of its own is named after its rank. -/
def name (level : Level) : List Char :=
  match named.lookup level with
  | some name => name.toList
  | none => "Level ".toList ++ textOfInt level.rank

def ofName? (name : String) : Option Level :=
  (named.map Prod.swap ++ aliases).lookup name

end Level

/-! ## Records -/

structure Record where
  level : Level
  message : String
  /-- Members that are reported beside the message. -/
  context : List (String × Json) := []
  deriving Repr

def Record.atLeast (level : Level) (records : List Record) : List Record :=
  records.filter (level.rank ≤ ·.level.rank)

end TokenCatalog.Log
